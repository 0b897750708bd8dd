import Mathlib.Data.List.Infix
import Mathlib.Tactic.Common
import Mathlib.Tactic.SplitIfs

/-!
# Streams of frames

A frame is a header of a fixed size, which tells the size of the payload, and the payload.  An
observer of a stream of frames who must not read the payloads still sees how long they are.

* `Framing`, `Framing.mask`: what such an observer sees of a stream, symbol by symbol;
* `Framing.mask_isPrefix`: what has been seen does not change when more arrives;
* `Framing.mask_flatten`: of a list of frames, only the headers are seen.
-/

/-- The size of the headers, and the size of the payload behind a header. -/
structure Framing (β : Type*) where
  headerSize : ℕ
  payloadSize : List β → ℕ

namespace Framing

variable {β : Type*} (F : Framing β)

/-- What is seen of a stream when a part of a header has been read already, and `n` symbols of a
payload are still to come. -/
def maskFrom (header : List β) (n : ℕ) : List β → List (Option β)
  | [] => []
  | b :: bs =>
      match n with
      | n + 1 => none :: maskFrom header n bs
      | 0 => some b ::
          if header.length + 1 = F.headerSize then maskFrom [] (F.payloadSize (header ++ [b])) bs
          else maskFrom (header ++ [b]) 0 bs

/-- What is seen of a stream of frames. -/
def mask (bs : List β) : List (Option β) := F.maskFrom [] 0 bs

@[simp] theorem mask_nil : F.mask [] = [] := rfl

theorem maskFrom_isPrefix {bs cs : List β} (h : bs <+: cs) (header : List β) (n : ℕ) :
    F.maskFrom header n bs <+: F.maskFrom header n cs := by
  induction bs generalizing cs header n with
  | nil => exact List.nil_prefix
  | cons b bs ih =>
    obtain ⟨rest, rfl⟩ := h
    have hrest : bs <+: bs ++ rest := List.prefix_append bs rest
    cases n with
    | succ n => exact List.cons_prefix_cons.mpr ⟨rfl, ih hrest header n⟩
    | zero =>
      refine List.cons_prefix_cons.mpr ⟨rfl, ?_⟩
      split_ifs
      · exact ih hrest _ _
      · exact ih hrest _ _

/-- What has been seen does not change when more arrives. -/
theorem mask_isPrefix {bs cs : List β} (h : bs <+: cs) : F.mask bs <+: F.mask cs :=
  F.maskFrom_isPrefix h [] 0

theorem maskFrom_payload (header payload rest : List β) :
    F.maskFrom header payload.length (payload ++ rest) =
      List.replicate payload.length none ++ F.maskFrom header 0 rest := by
  induction payload with
  | nil => rfl
  | cons b payload ih =>
    show none :: F.maskFrom header payload.length (payload ++ rest) = _
    rw [ih]
    rfl

theorem maskFrom_header {header bs : List β} (rest : List β) (hpos : bs ≠ [])
    (hlen : header.length + bs.length = F.headerSize) :
    F.maskFrom header 0 (bs ++ rest) =
      bs.map some ++ F.maskFrom [] (F.payloadSize (header ++ bs)) rest := by
  induction bs generalizing header with
  | nil => exact absurd rfl hpos
  | cons b bs ih =>
    rw [List.length_cons] at hlen
    rw [List.cons_append, maskFrom]
    by_cases hlast : bs = []
    · subst hlast
      rw [if_pos (by simpa using hlen)]
      rfl
    · have hrest : bs.length ≠ 0 := fun h => hlast (List.eq_nil_of_length_eq_zero h)
      have hlen' : (header ++ [b]).length + bs.length = F.headerSize := by
        rw [List.length_append, List.length_singleton]
        omega
      rw [if_neg (by omega), ih hlast hlen', List.append_assoc]
      rfl

theorem mask_frame (hpos : 0 < F.headerSize) {header payload : List β} (rest : List β)
    (hheader : header.length = F.headerSize) (hpayload : payload.length = F.payloadSize header) :
    F.mask (header ++ payload ++ rest) =
      header.map some ++ List.replicate (F.payloadSize header) none ++ F.mask rest := by
  have hne : header ≠ [] := by
    intro h
    rw [h, List.length_nil] at hheader
    omega
  rw [mask, List.append_assoc, F.maskFrom_header (payload ++ rest) hne (by simpa using hheader),
    List.nil_append, ← hpayload, F.maskFrom_payload, List.append_assoc]
  rfl

/-- What is seen of a list of frames, by their headers. -/
def seen (headers : List (List β)) : List (Option β) :=
  (headers.map fun h => h.map some ++ List.replicate (F.payloadSize h) none).flatten

theorem seen_isPrefix {headers headers' : List (List β)} (h : headers <+: headers') :
    F.seen headers <+: F.seen headers' := by
  obtain ⟨rest, rfl⟩ := h
  rw [seen, seen, List.map_append, List.flatten_append]
  exact List.prefix_append _ _

/-- Of a list of frames, only the headers are seen. -/
theorem mask_flatten (hpos : 0 < F.headerSize) {α : Type*} {header payload : α → List β}
    (l : List α) (hheader : ∀ a ∈ l, (header a).length = F.headerSize)
    (hpayload : ∀ a ∈ l, (payload a).length = F.payloadSize (header a)) :
    F.mask (l.map fun a => header a ++ payload a).flatten = F.seen (l.map header) := by
  induction l with
  | nil => rfl
  | cons a l ih =>
    rw [List.forall_mem_cons] at hheader hpayload
    rw [List.map_cons, List.flatten_cons,
      F.mask_frame hpos _ hheader.1 hpayload.1, ih hheader.2 hpayload.2]
    rfl

end Framing
