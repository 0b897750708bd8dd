import Mathlib.Data.UInt
import Trit.TransferRequest

/-!
# The geometry of a request

The numbers that `from_file_paths` computes in 32 and 64 bits, next to the exact ones.

* `knownSize`, `total`: the sizes of the files and their sum, as natural numbers;
* `Exact`: the numbers of a request are exact, and none was lost on the way;
* `Refused`: the inputs for which `from_file_paths` throws;
* `fromFilePaths_exact_iff`: it throws or is exact as long as the files can be counted in 32 bits,
  and the chunks too.
-/

namespace Trit

namespace TransferRequest

variable {Path : Type} {relative : Path → Bytes} {fileSize : Path → Except Exception UInt64}
  {paths : List Path} {r : TransferRequest}

/-- The size of a file, if it has one. -/
def knownSize (fileSize : Path → Except Exception UInt64) (path : Path) : ℕ :=
  match fileSize path with
  | .ok size => size.toNat
  | .error _ => 0

/-- The sum of the sizes. -/
def total (fileSize : Path → Except Exception UInt64) (paths : List Path) : ℕ :=
  (paths.map (knownSize fileSize)).sum

/-- The numbers of a request are those of the files: the sums do not wrap around, and what is
narrowed to 32 bits fits. -/
structure Exact (fileSize : Path → Except Exception UInt64) (paths : List Path)
    (r : TransferRequest) : Prop where
  numFiles : r.numFiles.toNat = paths.length
  transferSize : r.transferSize.toNat = total fileSize paths
  chunkSize_pos : 1 ≤ r.uncompressedChunkSize.toNat
  chunkSize_le : r.uncompressedChunkSize.toNat ≤ 8192
  finalChunkSize : r.uncompressedFinalChunkSize.toNat =
    r.transferSize.toNat % r.uncompressedChunkSize.toNat
  lt_transferSize : ((r.numChunks.toNat : ℤ) - 1) * r.uncompressedChunkSize.toNat <
    r.transferSize.toNat
  transferSize_le : r.transferSize.toNat ≤ r.numChunks.toNat * r.uncompressedChunkSize.toNat
  sum_lt : r.transferSize.toNat + (r.uncompressedChunkSize.toNat - 1) < 2 ^ 64
  quotient_lt : (r.transferSize.toNat + (r.uncompressedChunkSize.toNat - 1)) /
    r.uncompressedChunkSize.toNat < 2 ^ 32

/-- A size cannot be found out, or one of the two numbers that are compared with zero is zero in
its width. -/
def Refused (fileSize : Path → Except Exception UInt64) (paths : List Path) : Prop :=
  (∃ path ∈ paths, ∃ e, fileSize path = .error e) ∨ 2 ^ 32 ∣ paths.length ∨
    2 ^ 64 ∣ total fileSize paths

/-! ### The loop over the paths -/

/-- The loop fails with the first size that fails. -/
theorem addFileInfos_error (relative : Path → Bytes) {path : Path} (hmem : path ∈ paths)
    {e : Exception} (h : fileSize path = .error e) (infos : List FileInfo) (size : UInt64) :
    ∃ e', addFileInfos relative fileSize paths infos size = .error e' := by
  induction paths generalizing infos size with
  | nil => cases hmem
  | cons p paths ih =>
    rw [addFileInfos]
    cases hp : fileSize p with
    | error e' => exact ⟨e', rfl⟩
    | ok n =>
      rcases List.mem_cons.mp hmem with rfl | hmem
      · rw [h] at hp
        cases hp
      · exact ih hmem (infos ++ [⟨relative p, n⟩]) (size + n)

/-- Otherwise it adds the sizes up, modulo 64 bits. -/
theorem addFileInfos_total (relative : Path → Bytes)
    (h : ∀ path ∈ paths, ∀ e, fileSize path ≠ .error e)
    (infos : List FileInfo) (size : UInt64) :
    ∃ infos', addFileInfos relative fileSize paths infos size =
      .ok (infos', size + .ofNat (total fileSize paths)) := by
  induction paths generalizing infos size with
  | nil => exact ⟨infos, by simp [addFileInfos, total]⟩
  | cons p paths ih =>
    cases hp : fileSize p with
    | error e => exact absurd hp (h p List.mem_cons_self e)
    | ok n =>
      obtain ⟨infos', hinfos⟩ := ih (fun q hq => h q (List.mem_cons_of_mem _ hq))
        (infos ++ [⟨relative p, n⟩]) (size + n)
      have htotal : total fileSize (p :: paths) = n.toNat + total fileSize paths := by
        simp [total, knownSize, hp]
      refine ⟨infos', ?_⟩
      rw [addFileInfos, hp, htotal, UInt64.ofNat_add, UInt64.ofNat_toNat, ← UInt64.add_assoc]
      exact hinfos

/-- A number is zero in 64 bits exactly when they cut all of it off. -/
theorem ofNat_eq_zero_iff (n : ℕ) : UInt64.ofNat n = 0 ↔ 2 ^ 64 ∣ n := by
  rw [← UInt64.toNat_inj, UInt64.toNat_ofNat', Nat.dvd_iff_mod_eq_zero]
  rfl

theorem ofNat32_eq_zero_iff (n : ℕ) : UInt32.ofNat n = 0 ↔ 2 ^ 32 ∣ n := by
  rw [← UInt32.toNat_inj, UInt32.toNat_ofNat', Nat.dvd_iff_mod_eq_zero]
  rfl

/-- `from_file_paths` throws for the refused inputs and for no others. -/
theorem fromFilePaths_error_iff (relative : Path → Bytes)
    (fileSize : Path → Except Exception UInt64) (paths : List Path) :
    (∃ e, fromFilePaths relative fileSize paths = .error e) ↔ Refused fileSize paths := by
  by_cases hnum : UInt32.ofNat paths.length = 0
  · refine iff_of_true ⟨_, by rw [fromFilePaths, if_pos hnum]; rfl⟩ ?_
    exact Or.inr (Or.inl ((ofNat32_eq_zero_iff _).mp hnum))
  have hlen : ¬ 2 ^ 32 ∣ paths.length := mt (ofNat32_eq_zero_iff _).mpr hnum
  by_cases hfail : ∃ path ∈ paths, ∃ e, fileSize path = .error e
  · refine iff_of_true ?_ (Or.inl hfail)
    obtain ⟨path, hmem, e, he⟩ := hfail
    obtain ⟨e', he'⟩ := addFileInfos_error relative hmem he [] 0
    refine ⟨e', ?_⟩
    rw [fromFilePaths, if_neg hnum]
    simp only [he', bind, Except.bind]
  · obtain ⟨infos, hadd⟩ := addFileInfos_total relative
      (fun path hmem e he => hfail ⟨path, hmem, e, he⟩) [] 0
    rw [UInt64.zero_add] at hadd
    have hrefused : Refused fileSize paths ↔ UInt64.ofNat (total fileSize paths) = 0 := by
      rw [ofNat_eq_zero_iff, Refused, or_iff_right hfail, or_iff_right hlen]
    rw [hrefused, fromFilePaths, if_neg hnum]
    simp only [hadd, bind, Except.bind, pure, Except.pure]
    by_cases hzero : UInt64.ofNat (total fileSize paths) = 0
    · rw [if_pos hzero]
      exact iff_of_true ⟨_, rfl⟩ hzero
    · rw [if_neg hzero]
      exact iff_of_false (by simp) hzero

/-! ### The numbers -/

/-- The two accumulators of a request that was returned. -/
theorem transferSize_of_fromFilePaths (h : fromFilePaths relative fileSize paths = .ok r) :
    r.transferSize = .ofNat (total fileSize paths) := by
  have hnot : ¬ Refused fileSize paths := by
    rw [← fromFilePaths_error_iff relative]
    rintro ⟨e, he⟩
    rw [h] at he
    cases he
  obtain ⟨infos, hadd⟩ := addFileInfos_total relative
    (fun path hmem e he => hnot (Or.inl ⟨path, hmem, e, he⟩)) [] 0
  rw [(fromFilePaths_ok h).1, UInt64.zero_add] at hadd
  exact (Prod.mk.inj (Except.ok.inj hadd)).2

/-- Of a request that was returned, the numbers are exact if and only if 32 bits are enough for its
files and for its chunks. -/
theorem exact_of_ok_iff (h : fromFilePaths relative fileSize paths = .ok r) :
    Exact fileSize paths r ↔
      paths.length < 2 ^ 32 ∧ total fileSize paths ≤ 8192 * (2 ^ 32 - 1) := by
  constructor
  · intro hr
    have hnum := r.numFiles.toNat_lt
    have hchunks := r.numChunks.toNat_lt
    rw [hr.numFiles] at hnum
    refine ⟨hnum, ?_⟩
    rw [← hr.transferSize, Nat.mul_comm]
    exact hr.transferSize_le.trans
      (Nat.mul_le_mul (Nat.le_sub_one_of_lt hchunks) hr.chunkSize_le)
  · rintro ⟨hlen, hsize⟩
    have htoNat : r.transferSize.toNat = total fileSize paths := by
      rw [transferSize_of_fromFilePaths h]
      exact UInt64.toNat_ofNat_of_lt' (by show total fileSize paths < 2 ^ 64; omega)
    rw [← htoNat] at hsize
    obtain ⟨hpos, hcs, hfinal⟩ := chunkSize_of_fromFilePaths h
    obtain ⟨hle, hlt⟩ := numChunks_bounds h hsize
    refine ⟨?_, htoNat, by omega, by omega, hfinal, ?_, hle, by omega,
      (numChunks_of_fromFilePaths h hsize).1⟩
    · rw [(fromFilePaths_ok h).2.2.1]
      exact UInt32.toNat_ofNat_of_lt' hlen
    · -- over the integers, since `num_chunks` is compared after the subtraction
      rw [sub_mul, one_mul]
      omega

/-- `from_file_paths` either throws or returns exact numbers: for the refused inputs, and as long
as 32 bits are enough for the files and for the chunks. -/
theorem fromFilePaths_exact_iff (relative : Path → Bytes)
    (fileSize : Path → Except Exception UInt64) (paths : List Path) :
    ((∃ e, fromFilePaths relative fileSize paths = .error e) ∨
      ∃ r, fromFilePaths relative fileSize paths = .ok r ∧ Exact fileSize paths r) ↔
    Refused fileSize paths ∨
      paths.length < 2 ^ 32 ∧ total fileSize paths ≤ 8192 * (2 ^ 32 - 1) := by
  rw [fromFilePaths_error_iff]
  refine or_congr_right' fun hnot => ?_
  cases h : fromFilePaths relative fileSize paths with
  | error e => exact absurd ((fromFilePaths_error_iff relative fileSize paths).mp ⟨e, h⟩) hnot
  | ok r =>
    rw [← exact_of_ok_iff h]
    constructor
    · rintro ⟨r', hr', hexact⟩
      cases hr'
      exact hexact
    · intro hexact
      exact ⟨r, rfl, hexact⟩

/-- A file of 2^47 bytes makes 2^34 chunks, which are counted as none. -/
theorem not_fromFilePaths_exact :
    ¬ ((∃ e, fromFilePaths (fun _ : Unit => [97]) (fun _ => .ok (2 ^ 47)) [()] = .error e) ∨
      ∃ r, fromFilePaths (fun _ : Unit => [97]) (fun _ => .ok (2 ^ 47)) [()] = .ok r ∧
        Exact (fun _ : Unit => .ok (2 ^ 47)) [()] r) := by
  have hrun : fromFilePaths (fun _ : Unit => [97]) (fun _ => .ok (2 ^ 47)) [()] =
      .ok ⟨1, 2 ^ 47, 8192, 0, 0, [⟨[97], 2 ^ 47⟩]⟩ := rfl
  rw [hrun]
  rintro (⟨e, he⟩ | ⟨r, hr, hexact⟩)
  · cases he
  · cases hr
    exact absurd hexact.transferSize_le (by decide)

end TransferRequest

end Trit
