import Trit.Completion
import Trit.Lib.Binary64

/-!
# The progress bar

The text that `ProgressTracker::start` prints, with its arithmetic in double precision.  A bar whose
fill is wider than the bar itself would need a negative number of empty characters, and the tracker
would end the transfer with an exception.

* `progressPercentage`, `progressFillNumChars`, `draw`: the numbers and the text;
* `progressFillNumChars_le`, `le_progressFillNumChars`: the bar is never ahead of the progress, and
  one character behind at most;
* `Drawable`: the counter has not passed the limit;
* `Sender.bar_of_reach`: in every run of `send_files` the bar can be drawn, and is full only if all
  frames are on the socket;
* `Session.bars_of_reach`: in every session in which nothing fails both bars can be drawn;
* `Receiver.exists_overdrawn`: with a request that declares more than it delivers the receiver's
  bar cannot.
-/

namespace Trit

open Transition Binary64

namespace ProgressTracker

/-! ### The text -/

/-- `progress_percentage`: a quotient of doubles, times 100. -/
def progressPercentage (current limit : UInt32) : ℚ :=
  ofRat (ofRat (ofRat current.toNat / ofRat limit.toNat) * 100)

/-- `bar_width`. -/
def barWidth : ℕ := 30

/-- `progress_fill_num_chars`: the product is cut to an integer. -/
def progressFillNumChars (current limit : UInt32) : ℤ :=
  ⌊ofRat (ofRat (progressPercentage current limit / 100) * barWidth)⌋

/-- `std::string(n, c)`: a negative `n` becomes a number of characters that no string can have. -/
def chars (n : ℤ) (c : Char) : Except Exception String :=
  if n < 0 then .error (.lengthError "basic_string::_M_create")
  else .ok (String.ofList (List.replicate n.toNat c))

/-- The text for a value of the counter. -/
def draw (name : String) (current limit : UInt32) : Except Exception String := do
  let fill ← chars (progressFillNumChars current limit) '#'
  let empty ← chars (barWidth - progressFillNumChars current limit) '-'
  return "\r" ++ String.ofList (name.toList.rightpad 20 ' ') ++ "[" ++ fill ++ empty ++ "] " ++
    fixed 1 (progressPercentage current limit) ++ "% (" ++ toString current.toNat ++ "/" ++
    toString limit.toNat ++ ")"

/-! ### The width of the fill -/

variable {current limit : UInt32}

theorem ofRat_toNat (n : UInt32) : ofRat n.toNat = n.toNat :=
  ofRat_natCast (by have hlt := n.toNat_lt; omega)

theorem progressFillNumChars_eq (current limit : UInt32) :
    progressFillNumChars current limit =
      ⌊ofRat (ofRat (ofRat (ofRat ((current.toNat : ℚ) / limit.toNat) * 100) / 100) * 30)⌋ := by
  rw [progressFillNumChars, progressPercentage, ofRat_toNat, ofRat_toNat]
  rfl

/-- The exact width is rounded four times. -/
theorem near_fill (current limit : UInt32) :
    Near 4 ((current.toNat : ℚ) / limit.toNat * 30)
      (ofRat (ofRat (ofRat (ofRat ((current.toNat : ℚ) / limit.toNat) * 100) / 100) * 30)) := by
  have hnonneg : (0 : ℚ) ≤ (current.toNat : ℚ) / limit.toNat := by positivity
  have hpercent : Near 2 ((current.toNat : ℚ) / limit.toNat * 100)
      (ofRat (ofRat ((current.toNat : ℚ) / limit.toNat) * 100)) :=
    (((Near.refl _).round hnonneg).mul (by norm_num)).round (by positivity)
  have hquotient := (hpercent.div (c := 100) (by norm_num)).round (by positivity)
  rw [mul_div_assoc, div_self (by norm_num), mul_one] at hquotient
  exact (hquotient.mul (by norm_num)).round (by positivity)

/-- Four roundings move a width of at most 30 by less than a part in 2^32. -/
theorem abs_sub_lt_of_near {x y : ℚ} (h : Near 4 x y) (hx : 0 ≤ x) (hle : x ≤ 30) :
    |y - x| < 1 / 2 ^ 32 := by
  have hhigh : (1 + unit) ^ 4 ≤ 1 + 1 / 2 ^ 40 := by norm_num [unit]
  have hlow : 1 - 1 / 2 ^ 40 ≤ (1 - unit) ^ 4 := by norm_num [unit]
  have hupper := h.upper.trans (mul_le_mul_of_nonneg_left hhigh hx)
  have hlower := (mul_le_mul_of_nonneg_left hlow hx).trans h.lower
  rw [abs_lt]
  constructor <;> linarith

theorem fill_le (h : current ≤ limit) : (current.toNat : ℚ) / limit.toNat * 30 ≤ 30 := by
  have hle : (current.toNat : ℚ) ≤ limit.toNat := by
    exact_mod_cast UInt32.le_iff_toNat_le.mp h
  have hquotient := div_le_one_of_le₀ hle (by positivity)
  linarith

/-- The bar is never ahead of the progress. -/
theorem progressFillNumChars_le (h : current ≤ limit) (hlimit : 0 < limit) :
    progressFillNumChars current limit ≤ (30 * current.toNat / limit.toNat : ℕ) := by
  have hpos : 0 < limit.toNat := UInt32.lt_iff_toNat_lt.mp hlimit
  have hlt := limit.toNat_lt
  obtain ⟨k, hk⟩ : ∃ k, k = 30 * current.toNat / limit.toNat := ⟨_, rfl⟩
  -- below the next character at least one part in 2^32 is missing
  have hnat : 30 * current.toNat + 1 ≤ (k + 1) * limit.toNat := by
    rw [hk, mul_comm (_ + 1)]
    exact Nat.lt_mul_div_succ _ hpos
  have hposQ : (0 : ℚ) < limit.toNat := by exact_mod_cast hpos
  have hrat : (current.toNat : ℚ) / limit.toNat * 30 ≤ (k + 1) - 1 / limit.toNat := by
    have hcast : (30 : ℚ) * current.toNat + 1 ≤ (k + 1) * limit.toNat := by exact_mod_cast hnat
    rw [le_sub_iff_add_le, div_mul_eq_mul_div, ← add_div, div_le_iff₀ hposQ]
    linarith
  have hpart : (1 : ℚ) / 2 ^ 32 ≤ 1 / limit.toNat := by
    refine one_div_le_one_div_of_le hposQ ?_
    exact_mod_cast hlt.le
  have hmoved := abs_lt.mp
    (abs_sub_lt_of_near (near_fill current limit) (by positivity) (fill_le h))
  rw [progressFillNumChars_eq, ← hk, ← Int.lt_add_one_iff, Int.floor_lt]
  push_cast
  linarith [hmoved.2]

/-- The bar is one character behind at most. -/
theorem le_progressFillNumChars (h : current ≤ limit) (hlimit : 0 < limit) :
    ((30 * current.toNat / limit.toNat : ℕ) : ℤ) - 1 ≤ progressFillNumChars current limit := by
  have hposQ : (0 : ℚ) < limit.toNat := by exact_mod_cast UInt32.lt_iff_toNat_lt.mp hlimit
  obtain ⟨k, hk⟩ : ∃ k, k = 30 * current.toNat / limit.toNat := ⟨_, rfl⟩
  have hnat : k * limit.toNat ≤ 30 * current.toNat := by
    rw [hk]
    exact Nat.div_mul_le_self _ _
  have hrat : (k : ℚ) ≤ (current.toNat : ℚ) / limit.toNat * 30 := by
    have hcast : (k : ℚ) * limit.toNat ≤ 30 * current.toNat := by exact_mod_cast hnat
    rw [div_mul_eq_mul_div, le_div_iff₀ hposQ]
    linarith
  have hmoved := abs_lt.mp (abs_sub_lt_of_near (near_fill current limit) (by positivity)
    (fill_le h))
  rw [progressFillNumChars_eq, ← hk, Int.le_floor]
  push_cast
  linarith [hmoved.1]

theorem progressFillNumChars_nonneg (current limit : UInt32) :
    0 ≤ progressFillNumChars current limit := by
  rw [progressFillNumChars_eq]
  exact Int.floor_nonneg.mpr ((near_fill current limit).nonneg (by positivity))

theorem progressFillNumChars_le_barWidth (h : current ≤ limit) (hlimit : 0 < limit) :
    progressFillNumChars current limit ≤ barWidth := by
  have hpos : 0 < limit.toNat := UInt32.lt_iff_toNat_lt.mp hlimit
  have hle : 30 * current.toNat / limit.toNat ≤ barWidth :=
    Nat.div_le_of_le_mul (by
      rw [barWidth, mul_comm limit.toNat]
      exact Nat.mul_le_mul_left 30 (UInt32.le_iff_toNat_le.mp h))
  exact (progressFillNumChars_le h hlimit).trans (by exact_mod_cast hle)

/-- The fill is as wide as the bar at the limit, and only there. -/
theorem progressFillNumChars_eq_barWidth_iff (h : current ≤ limit) (hlimit : 0 < limit) :
    progressFillNumChars current limit = barWidth ↔ current = limit := by
  have hpos : 0 < limit.toNat := UInt32.lt_iff_toNat_lt.mp hlimit
  constructor
  · intro hfull
    have hle := progressFillNumChars_le h hlimit
    rw [hfull] at hle
    have hcount : 30 ≤ 30 * current.toNat / limit.toNat := by exact_mod_cast hle
    rw [Nat.le_div_iff_mul_le hpos] at hcount
    have hnat := UInt32.le_iff_toNat_le.mp h
    exact UInt32.toNat_inj.mp (by omega)
  · rintro rfl
    -- every operation on the way is exact
    have hone : (current.toNat : ℚ) / current.toNat = 1 :=
      div_self (by exact_mod_cast hpos.ne')
    have hexact : ∀ n : ℕ, n < 2 ^ 53 → ofRat n = n := fun n hn => ofRat_natCast hn
    have h₁ : ofRat 1 = 1 := by exact_mod_cast hexact 1 (by norm_num)
    have h₃ : ofRat 30 = 30 := by exact_mod_cast hexact 30 (by norm_num)
    have h₁₀₀ : ofRat 100 = 100 := by exact_mod_cast hexact 100 (by norm_num)
    rw [progressFillNumChars_eq, hone, h₁, one_mul, h₁₀₀, div_self (by norm_num), h₁, one_mul, h₃]
    rfl

/-- As long as the counter has not passed the limit, the text can be built: a bar of 30
characters. -/
theorem exists_draw (name : String) (h : current ≤ limit) (hlimit : 0 < limit) :
    ∃ n ≤ barWidth, (n : ℤ) = progressFillNumChars current limit ∧
      draw name current limit = .ok ("\r" ++ String.ofList (name.toList.rightpad 20 ' ') ++ "[" ++
        String.ofList (List.replicate n '#') ++
        String.ofList (List.replicate (barWidth - n) '-') ++ "] " ++
        fixed 1 (progressPercentage current limit) ++ "% (" ++ toString current.toNat ++ "/" ++
        toString limit.toNat ++ ")") := by
  obtain ⟨n, hn⟩ := Int.eq_ofNat_of_zero_le (progressFillNumChars_nonneg current limit)
  have hle := progressFillNumChars_le_barWidth h hlimit
  rw [hn] at hle
  have hnat : n ≤ barWidth := by exact_mod_cast hle
  have hempty : ((barWidth : ℤ) - n).toNat = barWidth - n := by omega
  refine ⟨n, hnat, hn.symm, ?_⟩
  rw [draw, hn, chars, chars, if_neg (by omega), if_neg (by omega), hempty, Int.toNat_natCast]
  rfl

/-- The loop does not print twice without another look at the counter. -/
theorem next_ne_print (limit current c : UInt32) : next limit current ≠ .running (.print c) := by
  unfold next
  split_ifs <;> simp

end ProgressTracker

open ProgressTracker

/-! ### The counter and the limit -/

namespace Pipeline

variable {capacity : ℕ} {π γ ω₁ ω₂ κ : Type} {P : Program π γ ω₁ ω₂ κ}
  {s t : Pipeline capacity π γ ω₁ ω₂ κ}

/-- Neither the counter nor the value that is about to be printed has passed the limit. -/
structure Drawable (limit : UInt32) (s : Pipeline capacity π γ ω₁ ω₂ κ) : Prop where
  counter : s.counter ≤ limit
  print : ∀ c, s.tracker = .running (.print c) → c ≤ limit

/-- As long as the counter does not pass the limit, neither does what is printed. -/
theorem Drawable.step {limit : UInt32} {a : Action} (hi : Drawable limit s)
    (h : s.step P a = some t) (ht : t.counter ≤ limit) : Drawable limit t := by
  refine ⟨ht, fun c hc => ?_⟩
  by_cases ha : ∃ f, a = .tracker f
  · obtain ⟨f, rfl⟩ := ha
    rcases step_tracker_cases h with ⟨pc, th, -, hmove, rfl⟩ | ⟨e, -, -, rfl⟩ | ⟨e, -, -, rfl⟩
    · replace hc : th = .running (.print c) := hc
      cases hmove with
      | changed last hpc hne =>
        cases hc
        exact hi.counter
      | same hpc | printed current hpc => exact absurd hc (next_ne_print _ _ c)
      | _ => cases hc
    · cases hc
    · cases hc
  · refine hi.print c ?_
    rw [← hc]
    cases a with
    | tracker f => exact absurd ⟨f, rfl⟩ ha
    | producer f | stage f | consumer f =>
      obtain ⟨x, -, rfl⟩ := Option.map_eq_some_iff.mp h
      rfl
    | main =>
      obtain ⟨-, -, ⟨e, -, rfl⟩ | ⟨-, rfl⟩⟩ := step_main_cases h
      · rfl
      · rfl

end Pipeline

/-! ### The sender -/

namespace Sender

variable {capacity : ℕ} {ss : SecretStream} {r : TransferRequest} {st : ss.State}
  {s : State capacity ss}

/-- The counter lags behind the chunks popped, by one chunk at most. -/
theorem Flow.counter_toNat (hi : Flow r st s) :
    s.counter.toNat = s.downstream.queue.popped.length ∧
        s.sink = TransferManager.frames s.downstream.queue.popped ∨
      s.counter.toNat + 1 = s.downstream.queue.popped.length := by
  have hpushed := hi.pushed_le
  have hnum := r.numChunks.toNat_lt
  rw [BoundedThreadSafeQueue.pushed, List.length_append] at hpushed
  rcases hi.send.flushed_or_torn with ⟨hsocket, hcounter⟩ | ⟨pre, c, part, hpop, -, -, hcounter⟩
  · rw [hcounter, UInt32.toNat_ofNat_of_lt' (by show _ < 2 ^ 32; omega)]
    exact Or.inl ⟨rfl, hsocket⟩
  · have hlen := congrArg List.length hpop
    rw [List.length_append, List.length_singleton] at hlen
    rw [hcounter, UInt32.toNat_ofNat_of_lt' (by show _ < 2 ^ 32; omega), hlen]
    exact Or.inr rfl

theorem Flow.popped_le (hi : Flow r st s) :
    s.downstream.queue.popped.length ≤ r.numChunks.toNat := by
  have hpushed := hi.pushed_le
  rw [BoundedThreadSafeQueue.pushed, List.length_append] at hpushed
  omega

theorem Flow.counter_le (hi : Flow r st s) : s.counter ≤ r.numChunks := by
  have hpopped := hi.popped_le
  rw [UInt32.le_iff_toNat_le]
  rcases hi.counter_toNat with ⟨hcounter, -⟩ | hcounter <;> omega

theorem drawable_of_reach {disk : FileManager.Disk}
    (h : Reach (step r) any (initial capacity r disk st) s) : s.Drawable r.numChunks := by
  have hboth : Flow r st s ∧ s.Drawable r.numChunks :=
    h.invariant (I := fun u => Flow r st u ∧ u.Drawable r.numChunks)
      (fun u a t ⟨hflow, hdraw⟩ _ hstep =>
        ⟨hflow.step hstep, hdraw.step hstep (hflow.step hstep).counter_le⟩)
      ⟨Flow.initial r disk st, UInt32.zero_le, nofun⟩
  exact hboth.2

/-- The sender's bar.  Whatever fails, drawing it does not: the tracker never ends a transfer by
itself.  What is drawn is not ahead of the counter, and a full bar means that the frames of all
chunks are on the socket. -/
theorem bar_of_reach {disk : FileManager.Disk} (hlimit : 0 < r.numChunks)
    (h : Reach (step r) any (initial capacity r disk st) s) {c : UInt32}
    (hc : s.tracker = .running (.print c)) :
    (∃ text, draw "Chunks sent" c r.numChunks = .ok text) ∧ c ≤ s.counter ∧
      (progressFillNumChars c r.numChunks = barWidth →
        s.downstream.queue.popped.length = r.numChunks.toNat ∧
          s.sink = TransferManager.frames s.downstream.queue.popped) := by
  have hflow := Flow.of_reach h
  have hle := (drawable_of_reach h).print c hc
  have hcounter := hflow.tracked.print c hc
  obtain ⟨n, -, -, htext⟩ := exists_draw "Chunks sent" hle hlimit
  refine ⟨⟨_, htext⟩, hcounter, fun hfull => ?_⟩
  rw [(progressFillNumChars_eq_barWidth_iff hle hlimit).mp hfull, UInt32.le_iff_toNat_le]
    at hcounter
  have hpopped := hflow.popped_le
  rcases hflow.counter_toNat with ⟨heq, hsocket⟩ | heq
  · exact ⟨by omega, hsocket⟩
  · exfalso
    omega

/-- The full bar of a transfer of one byte. -/
theorem bar_of_oneByteRun : ∃ s, Reach (step oneByteRequest) any oneByteInitial s ∧
    s.tracker = .running (.print 1) ∧ (∃ text, draw "Chunks sent" 1 1 = .ok text) ∧
    s.sink = TransferManager.frames s.downstream.queue.popped := by
  have hrun : (exec (step oneByteRequest) oneByteInitial (oneByteRun.take 29)).map
      (fun s => decide (s.tracker = .running (.print 1))) = some true := by decide +kernel
  obtain ⟨s, hs, htracker⟩ := reach_of_exec_test _ (fun _ _ _ => trivial) hrun
  have htracker := of_decide_eq_true htracker
  obtain ⟨htext, -, hfull⟩ := bar_of_reach (by decide) hs htracker
  refine ⟨s, hs, htracker, htext, (hfull ?_).2⟩
  exact (progressFillNumChars_eq_barWidth_iff (by decide) (by decide)).mpr rfl

end Sender

/-! ### The receiver -/

namespace FileManager

/-- The writer has counted no more chunks than it has popped. -/
theorem WriteFlow.counter_toNat_le {r : TransferRequest} {disk : Disk} {start fs : FileSystem}
    {done : Bool} {popped : List Chunk} {counter : UInt32} {t : Thread WritePc}
    (h : WriteFlow r disk start done popped fs counter t) : counter.toNat ≤ popped.length := by
  cases t with
  | running pc =>
    cases pc with
    | firstPop =>
      obtain ⟨-, -, rfl⟩ := h
      exact Nat.zero_le _
    | openFile l info infos =>
      obtain ⟨-, -, -, ⟨-, hcounter⟩ | ⟨-, -, hcounter⟩⟩ := h
      · omega
      · exact hcounter.le
    | abortCheck l path n infos | write l path n infos =>
      obtain ⟨-, -, -, -, -, hcounter⟩ := h
      omega
    | increment l path n infos =>
      obtain ⟨-, -, -, -, hcounter⟩ := h
      omega
    | inputDone l path n infos =>
      obtain ⟨-, -, -, -, hcounter⟩ := h
      exact hcounter.le
    | inputEmpty l path n infos =>
      obtain ⟨-, -, -, -, -, hcounter⟩ := h
      exact hcounter.le
    | pop path n infos => exact h.1.le
  | returned =>
    obtain ⟨-, hpopped, rfl⟩ := h
    exact hpopped.ge
  | caught e | flagged e => exact h.elim

end FileManager

namespace Receiver

variable {capacity : ℕ} {ss : SecretStream} {r : TransferRequest} {disk : FileManager.Disk}
  {st : ss.State} {start : FileManager.FileSystem} {es : List Chunk} {coming : Bytes}
  {s : State capacity ss}

/-- When nothing fails, the writer counts no more chunks than there are. -/
theorem Calm.counter_le (hon : Honest r disk st es) (hi : Calm r disk st start es coming s) :
    s.counter ≤ r.numChunks := by
  have hpushed := (hi.pushed_isPrefix hon).length_le
  have hcounter := hi.write.counter_toNat_le
  rw [BoundedThreadSafeQueue.pushed, List.length_append, FileManager.length_packing] at hpushed
  rw [UInt32.le_iff_toNat_le]
  omega

end Receiver

namespace Session

open FileManager

variable {capacity : ℕ} {ss : SecretStream} {r : TransferRequest} {disk : Disk} {st : ss.State}
  {start : FileSystem} {es : List Chunk} {m : EncryptionManager ss} {s t : Session capacity ss}

/-- The bars of both ends can be drawn. -/
structure Drawable (r : TransferRequest) (s : Session capacity ss) : Prop where
  sender : s.sender.Drawable r.numChunks
  receiver : s.receiver.Drawable r.numChunks

theorem Drawable.step {e : Event} (hon : Receiver.Honest r disk st es) (hi : Drawable r s)
    (ht : Agreed r disk st start es t) (h : Session.step r r s e = some t) : Drawable r t := by
  obtain ⟨coming, -, hreceiver⟩ := ht.receiver
  have hsent := ht.sender.flow.counter_le
  have hwritten := hreceiver.counter_le hon
  cases e with
  | sender a =>
    obtain ⟨u, hu, rfl⟩ := Option.map_eq_some_iff.mp h
    exact ⟨hi.sender.step hu hsent, hi.receiver⟩
  | receiver a =>
    obtain ⟨u, hu, rfl⟩ := Option.map_eq_some_iff.mp h
    exact ⟨hi.sender, hi.receiver.step hu hwritten⟩
  | arrive n | lose n =>
    obtain rfl := Option.some.inj h
    exact ⟨hi.sender, hi.receiver.counter, hi.receiver.print⟩
  | close =>
    simp only [Session.step] at h
    split_ifs at h
    obtain rfl := Option.some.inj h
    exact ⟨hi.sender, hi.receiver.counter, hi.receiver.print⟩

variable {Path : Type} {relative : Path → Bytes} {paths : List Path} {bytes : Bytes}

/-- Both bars of a session.  As long as nothing else fails, drawing them does not fail either, on
either side: no counter passes its limit. -/
theorem bars_of_reach
    (hr : TransferRequest.fromFilePaths relative (fun p => disk.fileSize (relative p)) paths =
      .ok r) (hcount : paths.length < 2 ^ 32) (hser : r.serialize = .ok bytes)
    (hsize : (payload disk r.fileInfos).length ≤ 8192 * (2 ^ 32 - 1)) (st : ss.State)
    (start : FileSystem) :
    ∃ r', TransferRequest.deserialize bytes = .ok r' ∧ ∀ s : Session capacity ss,
      Reach (step r r') quiet (initial capacity r r' disk start st) s →
        (∀ c, s.sender.tracker = .running (.print c) →
          ∃ text, draw "Chunks sent" c r.numChunks = .ok text) ∧
        ∀ c, s.receiver.tracker = .running (.print c) →
          ∃ text, draw "Chunks written" c r'.numChunks = .ok text := by
  have hfits := fits_of_fromFilePaths hr hsize
  obtain ⟨es, m, hall, hon⟩ := Receiver.exists_honest hfits st
  have hlimit : 0 < r.numChunks := UInt32.lt_iff_toNat_lt.mpr hfits.numChunks_pos
  refine ⟨r, deserialize_fromFilePaths hr hcount hser, fun s hs => ?_⟩
  have hboth : Agreed r disk st start es s ∧ Drawable r s :=
    hs.invariant (I := fun u => Agreed r disk st start es u ∧ Drawable r u)
      (fun u e t ⟨hu, hdraw⟩ hq hstep =>
        ⟨hu.step hon hall hq hstep, hdraw.step hon (hu.step hon hall hq hstep) hstep⟩)
      ⟨Agreed.initial hfits es st start, ⟨UInt32.zero_le, nofun⟩, UInt32.zero_le, nofun⟩
  obtain ⟨-, hsender, hreceiver⟩ := hboth
  refine ⟨fun c hc => ?_, fun c hc => ?_⟩
  · obtain ⟨n, -, -, htext⟩ := exists_draw "Chunks sent" (hsender.print c hc) hlimit
    exact ⟨_, htext⟩
  · obtain ⟨n, -, -, htext⟩ := exists_draw "Chunks written" (hreceiver.print c hc) hlimit
    exact ⟨_, htext⟩

/-- The receiver of the one byte is about to draw the full bar. -/
theorem bars_of_oneByte : ∃ s, Reach (step Sender.oneByteRequest Sender.oneByteRequest) quiet
    oneByteInitial s ∧ s.receiver.tracker = .running (.print 1) ∧
    ∃ text, draw "Chunks written" 1 1 = .ok text := by
  have hquiet : ∀ e ∈ oneByteHandover ++ oneByteReceive.take 22, e.quiet = true :=
    List.all_eq_true.mp (by decide)
  have hrun : (exec (step Sender.oneByteRequest Sender.oneByteRequest) oneByteInitial
      (oneByteHandover ++ oneByteReceive.take 22)).map
      (fun s => decide (s.receiver.tracker = .running (.print 1))) = some true := by
    decide +kernel
  obtain ⟨s, hs, htracker⟩ := reach_of_exec_test _ (fun e he _ => hquiet e he) hrun
  have htracker := of_decide_eq_true htracker
  obtain ⟨r', hr', hbars⟩ := bars_of_reach Sender.fromFilePaths_oneByte (by decide)
    (show Sender.oneByteRequest.serialize = .ok _ from rfl) (by decide) Sender.newStream
    Receiver.emptyDirectory
  obtain rfl : Sender.oneByteRequest = r' := Except.ok.inj hr'
  exact ⟨s, hs, htracker, (hbars s hs).2 1 htracker⟩

end Session

/-! ### A request that declares too much -/

namespace Receiver

/-- One chunk of one byte, for three files of one byte each. -/
def threeFilesRequest : TransferRequest := ⟨3, 3, 1, 0, 1, [⟨[97], 1⟩, ⟨[98], 1⟩, ⟨[99], 1⟩]⟩

/-- The chunk arrives and is written to the first file; for each of the others the writer counts it
again. -/
def overdrawnRun : List Action :=
  List.replicate 4 (.producer none) ++ List.replicate 9 (.stage none) ++
    List.replicate 17 (.consumer none) ++ List.replicate 2 (.tracker none)

/-- The writer counts the only chunk three times, and the bar of the tracker would have -60 empty
characters. -/
theorem exists_overdrawn : ∃ s : State queueCapacity .counting,
    Reach (step threeFilesRequest) quiet (initial queueCapacity threeFilesRequest
      ⟨TransferManager.frames [Sender.oneByteFrame], true⟩ emptyDirectory Sender.newStream) s ∧
    s.tracker = .running (.print 3) ∧
    draw "Chunks written" 3 threeFilesRequest.numChunks =
      .error (.lengthError "basic_string::_M_create") := by
  have hrun : (exec (step threeFilesRequest) (initial queueCapacity threeFilesRequest
      ⟨TransferManager.frames [Sender.oneByteFrame], true⟩ emptyDirectory Sender.newStream)
      overdrawnRun).map (fun s => decide (s.tracker = .running (.print 3))) = some true := by
    decide +kernel
  obtain ⟨s, hs, htracker⟩ := reach_of_exec_test _ (quiet_of_all (by decide)) hrun
  refine ⟨s, hs, of_decide_eq_true htracker, ?_⟩
  have hexact : ∀ n : ℕ, n < 2 ^ 53 → ofRat n = n := fun n hn => ofRat_natCast hn
  have h₃ : ofRat 3 = 3 := by exact_mod_cast hexact 3 (by norm_num)
  have h₃₀₀ : ofRat 300 = 300 := by exact_mod_cast hexact 300 (by norm_num)
  have h₉₀ : ofRat 90 = 90 := by exact_mod_cast hexact 90 (by norm_num)
  have hfill : progressFillNumChars 3 threeFilesRequest.numChunks = 90 := by
    have hthree : (3 : UInt32).toNat = 3 := rfl
    have hone : threeFilesRequest.numChunks.toNat = 1 := rfl
    rw [progressFillNumChars_eq, hthree, hone]
    norm_num [h₃, h₃₀₀, h₉₀]
  rw [draw, hfill, chars, chars, if_neg (by norm_num), if_pos (by norm_num [barWidth])]
  rfl

end Receiver

end Trit
