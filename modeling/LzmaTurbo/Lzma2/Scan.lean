import LzmaTurbo.Lzma2.Decoder

/-!
# Run-boundary discovery

A chunk whose control byte asks for a dictionary reset starts a run that decodes
without reference to anything before it. The scanner reads chunk headers and
skips chunk payloads; it never decodes.
-/
namespace LzmaTurbo.Lzma2
open Machine Lzma

/-- The chunks of a run, counted and sized by kind. Packed sizes include the headers. -/
structure Lzma2RunChunks where
  lzmaChunks : ℕ
  lzmaPacked : ℕ
  lzmaUnpacked : ℕ
  copyChunks : ℕ
  copyPacked : ℕ
  copyUnpacked : ℕ
  stateResets : ℕ
  propResets : ℕ
deriving DecidableEq

def Lzma2RunChunks.default : Lzma2RunChunks := ⟨0, 0, 0, 0, 0, 0, 0, 0⟩

def Lzma2RunChunks.add (c : Lzma2RunChunks) (control headerLen payloadLen unpackedLen : ℕ) :
    Lzma2RunChunks :=
  let packed := headerLen + payloadLen
  if isUncompressedState control then
    { c with
      copyChunks := c.copyChunks + 1
      copyPacked := c.copyPacked + packed
      copyUnpacked := c.copyUnpacked + unpackedLen }
  else
    { c with
      lzmaChunks := c.lzmaChunks + 1
      lzmaPacked := c.lzmaPacked + packed
      lzmaUnpacked := c.lzmaUnpacked + unpackedLen
      stateResets := c.stateResets + if 0xA0 ≤ control then 1 else 0
      propResets := c.propResets + if 0xC0 ≤ control then 1 else 0 }

structure Lzma2Run where
  inOffset : ℕ
  packedLen : ℕ
  outOffset : ℕ
  unpackedLen : ℕ
  hasDictReset : Bool
  chunks : Lzma2RunChunks
deriving DecidableEq

structure OpenRun where
  inOffset : ℕ
  outOffset : ℕ
  hasDictReset : Bool
  chunks : Lzma2RunChunks
deriving DecidableEq

structure Lzma2RunScanner where
  frame : Lzma2Frame
  prop : LzmaProps
  inPos : ℕ
  outPos : ℕ
  dataRemaining : ℕ
  current : Option OpenRun
  ready : List Lzma2Run
  finished : Bool
  failed : Bool

theorem lzmaDicMin_le : lzmaDicMin ≤ 1 <<< 12 := by decide

theorem scanDict_lt : 1 <<< 12 < 2 ^ 32 := by decide

/-- Any valid triple will do. -/
def scanProps : LzmaProps where
  lc := 0
  lp := 0
  pb := 0
  dictSize := 1 <<< 12
  lc_le := zero_le_eight
  lp_le := zero_le_four
  pb_le := zero_le_four
  dict_ge := lzmaDicMin_le
  dict_lt := scanDict_lt

def Lzma2RunScanner.new : Lzma2RunScanner where
  frame := .new
  prop := scanProps
  inPos := 0
  outPos := 0
  dataRemaining := 0
  current := none
  ready := []
  finished := false
  failed := false

def Lzma2RunScanner.skipPayload (s : Lzma2RunScanner) (n : ℕ) : Lzma2RunScanner × ℕ :=
  let take := min n s.dataRemaining
  ({ s with inPos := s.inPos + take, dataRemaining := s.dataRemaining - take }, take)

def Lzma2RunScanner.nextRun (s : Lzma2RunScanner) : Lzma2RunScanner × Option Lzma2Run :=
  match s.ready with
  | [] => (s, none)
  | run :: ready => ({ s with ready }, some run)

def Lzma2RunScanner.closeRun (s : Lzma2RunScanner) : Lzma2RunScanner :=
  match s.current with
  | none => s
  | some o =>
      { s with
        current := none
        ready := s.ready ++ [{
          inOffset := o.inOffset, packedLen := s.inPos - o.inOffset, outOffset := o.outOffset
          unpackedLen := s.outPos - o.outOffset, hasDictReset := o.hasDictReset
          chunks := o.chunks }] }

/-- A control byte before the state machine sees it; false when it ends the stream. -/
def Lzma2RunScanner.onControl (s : Lzma2RunScanner) (b : ℕ) : Bool × Lzma2RunScanner :=
  let startsRun := decide (b = 0 ∨ 0xE0 ≤ b ∨ b = lzma2ControlCopyResetDic)
  let s := if startsRun then s.closeRun else s
  if b = 0 then (false, { s with finished := true, frame := { s.frame with state := .finished } })
  else
    (true, match s.current with
      | some _ => s
      | none =>
          { s with current := some {
              inOffset := s.inPos, outOffset := s.outPos, hasDictReset := startsRun
              chunks := .default } })

/-- The header of a chunk is complete. -/
def Lzma2RunScanner.onData (s : Lzma2RunScanner) : Lzma2RunScanner :=
  let control := s.frame.control
  let unpacked := s.frame.unpackSize
  let (headerLen, payload) :=
    if isUncompressedState control then (3, unpacked)
    else (5 + (if control &&& 0x40 ≠ 0 then 1 else 0), s.frame.packSize)
  { s with
    outPos := s.outPos + unpacked
    dataRemaining := payload
    current := s.current.map fun o =>
      { o with chunks := o.chunks.add control headerLen payload unpacked }
    frame := { s.frame with unpackSize := 0, state := .control } }

inductive HeaderByte where
  | ended (s : Lzma2RunScanner)
  | broken (s : Lzma2RunScanner)
  | read (s : Lzma2RunScanner)

/-- A byte through the shared state machine. -/
def Lzma2RunScanner.update (s : Lzma2RunScanner) (b : ℕ) : HeaderByte :=
  let (frame, prop) := s.frame.updateState b s.prop
  let s := { s with frame, prop, inPos := s.inPos + 1 }
  match frame.state with
  | .error => .broken { s with failed := true }
  | .data => .read s.onData
  | _ => .read s

/-- One byte outside a payload. -/
def Lzma2RunScanner.header (s : Lzma2RunScanner) (b : ℕ) : HeaderByte :=
  let (goes, s) := if s.frame.state = .control then s.onControl b else (true, s)
  if goes then s.update b else .ended { s with inPos := s.inPos + 1 }

/-- The loop of `feed`: a turn takes a byte of a header or a piece of a payload. -/
def feedLoop : ℕ → Lzma2RunScanner → List UInt8 → ℕ → Lzma2RunScanner × Except Error ℕ
  | fuel + 1, s, b :: rest, pos =>
      if s.finished then (s, .ok pos)
      else if s.dataRemaining ≠ 0 then
        let want := min s.dataRemaining (b :: rest).length
        feedLoop fuel { s with inPos := s.inPos + want, dataRemaining := s.dataRemaining - want }
          ((b :: rest).drop want) (pos + want)
      else
        match s.header b.toNat with
        | .ended s => (s, .ok (pos + 1))
        | .broken s => (s, .error .corruptData)
        | .read s => feedLoop fuel s rest (pos + 1)
  | _, s, _, pos => (s, .ok pos)

def Lzma2RunScanner.feed (s : Lzma2RunScanner) (data : List UInt8) :
    Lzma2RunScanner × Except Error ℕ :=
  if s.failed then (s, .error .corruptData) else feedLoop data.length s data 0

/-- What a caller does: it hands over a slice, passes over a payload, or takes a run. -/
inductive ScanOp where
  | feed (n : ℕ)
  | skip (n : ℕ)
  | take

/-- A stream half handed over, and the runs taken so far. -/
structure ScanTrace where
  s : Lzma2RunScanner
  rest : List UInt8
  taken : List Lzma2Run
  failed : Bool

def ScanTrace.start (xs : List UInt8) : ScanTrace :=
  { s := .new, rest := xs, taken := [], failed := false }

def ScanTrace.step (t : ScanTrace) : ScanOp → ScanTrace
  | .feed n =>
      match t.s.feed (t.rest.take n) with
      | (s, .ok k) => { t with s, rest := t.rest.drop k }
      | (s, .error _) => { t with s, failed := true }
  | .skip n =>
      let (s, k) := t.s.skipPayload n
      { t with s, rest := t.rest.drop k }
  | .take =>
      match t.s.nextRun with
      | (s, none) => { t with s }
      | (s, some run) => { t with s, taken := t.taken ++ [run] }

/-- The runs the scanner has reported, taken or not. -/
def ScanTrace.runs (t : ScanTrace) : List Lzma2Run := t.taken ++ t.s.ready

/-! ## The scanner a byte at a time -/

def HeaderByte.scanner : HeaderByte → Lzma2RunScanner
  | .ended s => s
  | .broken s => s
  | .read s => s

/-- One byte, whatever it belongs to; nothing after the end or an error. -/
def Lzma2RunScanner.next (s : Lzma2RunScanner) (b : UInt8) : Lzma2RunScanner :=
  if s.finished ∨ s.failed then s
  else if s.dataRemaining ≠ 0 then
    { s with inPos := s.inPos + 1, dataRemaining := s.dataRemaining - 1 }
  else (s.header b.toNat).scanner

def Lzma2RunScanner.scan (s : Lzma2RunScanner) (xs : List UInt8) : Lzma2RunScanner :=
  xs.foldl Lzma2RunScanner.next s

section
variable {s : Lzma2RunScanner} {xs ys : List UInt8}

theorem Lzma2RunScanner.scan_append (s : Lzma2RunScanner) (xs ys : List UInt8) :
    s.scan (xs ++ ys) = (s.scan xs).scan ys := List.foldl_append

theorem Lzma2RunScanner.scan_cons (s : Lzma2RunScanner) (b : UInt8) (xs : List UInt8) :
    s.scan (b :: xs) = (s.next b).scan xs := rfl

/-- Payload bytes only count. -/
theorem Lzma2RunScanner.scan_payload (hf : s.finished = false) (he : s.failed = false)
    (hlen : xs.length ≤ s.dataRemaining) :
    s.scan xs = { s with
      inPos := s.inPos + xs.length, dataRemaining := s.dataRemaining - xs.length } := by
  induction xs generalizing s with
  | nil => rfl
  | cons b xs ih =>
      rw [List.length_cons] at hlen
      have hnext : s.next b =
          { s with inPos := s.inPos + 1, dataRemaining := s.dataRemaining - 1 } := by
        rw [Lzma2RunScanner.next, if_neg (by simp [hf, he]), if_pos (by omega)]
      have hrest := ih (s := s.next b) (by rw [hnext]; exact hf) (by rw [hnext]; exact he)
        (by rw [hnext]; show _ ≤ s.dataRemaining - 1; omega)
      rw [Lzma2RunScanner.scan_cons, hrest, hnext]
      simp only [List.length_cons, Lzma2RunScanner.mk.injEq, and_true, true_and]
      omega

/-- What a byte does to the flags. -/
def HeaderByte.Flags : HeaderByte → Prop
  | .ended s => s.finished = true ∧ s.failed = false
  | .broken s => s.failed = true
  | .read s => s.finished = false ∧ s.failed = false

theorem Lzma2RunScanner.closeRun_flags (s : Lzma2RunScanner) :
    s.closeRun.finished = s.finished ∧ s.closeRun.failed = s.failed := by
  unfold Lzma2RunScanner.closeRun
  cases s.current <;> exact ⟨rfl, rfl⟩

theorem Lzma2RunScanner.update_flags (hf : s.finished = false) (he : s.failed = false) (b : ℕ) :
    (s.update b).Flags := by
  simp only [Lzma2RunScanner.update]
  cases (s.frame.updateState b s.prop).1.state
  case error => rfl
  all_goals exact ⟨hf, he⟩

theorem Lzma2RunScanner.onControl_flags (hf : s.finished = false) (he : s.failed = false)
    (b : ℕ) : (s.onControl b).2.failed = false ∧
      (s.onControl b).2.finished = !(s.onControl b).1 := by
  obtain ⟨h1, h2⟩ := s.closeRun_flags
  simp only [Lzma2RunScanner.onControl]
  generalize hs : (if decide (b = 0 ∨ 0xE0 ≤ b ∨ b = lzma2ControlCopyResetDic) = true then
    s.closeRun else s) = s'
  have hs' : s'.finished = false ∧ s'.failed = false := by
    rw [← hs]
    split
    · exact ⟨h1.trans hf, h2.trans he⟩
    · exact ⟨hf, he⟩
  by_cases h0 : b = 0
  · rw [if_pos h0]
    exact ⟨hs'.2, rfl⟩
  · rw [if_neg h0]
    cases hc : s'.current with
    | none => exact ⟨hs'.2, hs'.1⟩
    | some o => exact ⟨hs'.2, hs'.1⟩

theorem Lzma2RunScanner.header_flags (hf : s.finished = false) (he : s.failed = false) (b : ℕ) :
    (s.header b).Flags := by
  simp only [Lzma2RunScanner.header]
  by_cases hc : s.frame.state = .control
  · rw [if_pos hc]
    obtain ⟨h1, h2⟩ := Lzma2RunScanner.onControl_flags hf he b
    cases hg : (s.onControl b).1 with
    | true => exact Lzma2RunScanner.update_flags (h2.trans (by rw [hg]; rfl)) h1 b
    | false => exact ⟨h2.trans (by rw [hg]; rfl), h1⟩
  · rw [if_neg hc]
    exact Lzma2RunScanner.update_flags hf he b

/-- After the end or an error bytes change nothing. -/
theorem Lzma2RunScanner.scan_stopped (h : s.finished = true ∨ s.failed = true) :
    s.scan xs = s := by
  induction xs with
  | nil => rfl
  | cons b xs ih =>
      have hnext : s.next b = s := if_pos h
      rw [Lzma2RunScanner.scan_cons, hnext, ih]

/-- How a call of `feed` ends: the bytes it took are scanned. -/
def FeedEnd (s : Lzma2RunScanner) (data : List UInt8) (pos : ℕ)
    (r : Lzma2RunScanner × Except Error ℕ) : Prop :=
  r.1 = s.scan data ∧ (r.1.failed = true ∧ r.2 = .error .corruptData ∨
    r.1.failed = false ∧ ∃ k ≤ data.length, r.2 = .ok (pos + k) ∧ r.1 = s.scan (data.take k) ∧
      (k < data.length → r.1.finished = true))

theorem feedLoop_end {fuel pos : ℕ} (hfuel : xs.length ≤ fuel) (he : s.failed = false) :
    FeedEnd s xs pos (feedLoop fuel s xs pos) := by
  induction fuel generalizing s xs pos with
  | zero =>
      obtain rfl : xs = [] := List.eq_nil_of_length_eq_zero (Nat.le_zero.mp hfuel)
      exact ⟨rfl, .inr ⟨he, 0, le_rfl, rfl, rfl, fun h => absurd h (Nat.lt_irrefl 0)⟩⟩
  | succ fuel ih =>
      rcases xs with _ | ⟨b, xs⟩
      · exact ⟨rfl, .inr ⟨he, 0, le_rfl, rfl, rfl, fun h => absurd h (Nat.lt_irrefl 0)⟩⟩
      rw [List.length_cons] at hfuel
      unfold feedLoop
      by_cases hf : s.finished = true
      · rw [if_pos hf]
        exact ⟨(Lzma2RunScanner.scan_stopped (.inl hf)).symm, .inr ⟨he, 0, Nat.zero_le _, rfl, rfl,
          fun _ => hf⟩⟩
      rw [if_neg hf]
      have hf' : s.finished = false := by simpa using hf
      by_cases hd : s.dataRemaining ≠ 0
      · rw [if_pos hd]
        obtain ⟨want, hwant⟩ : ∃ want, want = min s.dataRemaining (b :: xs).length := ⟨_, rfl⟩
        have hpos : 0 < want := by
          rw [hwant, List.length_cons]
          omega
        have hle : want ≤ (b :: xs).length := hwant ▸ Nat.min_le_right _ _
        have htake : s.scan ((b :: xs).take want) = { s with
            inPos := s.inPos + want, dataRemaining := s.dataRemaining - want } := by
          rw [Lzma2RunScanner.scan_payload hf' he (by rw [List.length_take, hwant]; omega),
            List.length_take, Nat.min_eq_left hle]
        rw [← hwant]
        show FeedEnd s (b :: xs) pos (feedLoop fuel { s with
          inPos := s.inPos + want, dataRemaining := s.dataRemaining - want }
            ((b :: xs).drop want) (pos + want))
        rw [← htake]
        have hrest : FeedEnd (s.scan ((b :: xs).take want)) ((b :: xs).drop want) (pos + want) _ :=
          ih (by rw [List.length_drop, List.length_cons]; omega) (by rw [htake]; exact he)
        obtain ⟨h1, h2⟩ := hrest
        refine ⟨?_, h2.imp_right fun ⟨hne, k, hk, hres, hs, hfin⟩ => ⟨hne, want + k, ?_, ?_, ?_, ?_⟩⟩
        · rw [h1, ← Lzma2RunScanner.scan_append, List.take_append_drop]
        · rw [List.length_drop] at hk
          omega
        · rw [hres, Nat.add_assoc]
        · rw [hs, ← Lzma2RunScanner.scan_append, List.take_add]
        · intro hlt
          apply hfin
          rw [List.length_drop]
          omega
      · rw [if_neg hd]
        have hnext : s.next b = (s.header b.toNat).scanner := by
          rw [Lzma2RunScanner.next, if_neg (by simp [hf', he]), if_neg hd]
        have hflags := Lzma2RunScanner.header_flags hf' he b.toNat
        cases hh : s.header b.toNat with
        | ended s' =>
            rw [hh] at hflags hnext
            have hs' : s.next b = s' := hnext
            refine ⟨?_, .inr ⟨hflags.2, 1, by rw [List.length_cons]; omega, rfl, ?_,
              fun _ => hflags.1⟩⟩
            · rw [Lzma2RunScanner.scan_cons, hs', Lzma2RunScanner.scan_stopped (.inl hflags.1)]
            · exact hs'.symm
        | broken s' =>
            rw [hh] at hflags hnext
            have hs' : s.next b = s' := hnext
            refine ⟨?_, .inl ⟨hflags, rfl⟩⟩
            rw [Lzma2RunScanner.scan_cons, hs', Lzma2RunScanner.scan_stopped (.inr hflags)]
        | read s' =>
            rw [hh] at hflags hnext
            have hs' : s.next b = s' := hnext
            have hrest : FeedEnd s' xs (pos + 1) (feedLoop fuel s' xs (pos + 1)) :=
              ih (Nat.le_of_succ_le_succ hfuel) hflags.2
            obtain ⟨h1, h2⟩ := hrest
            refine ⟨by rw [Lzma2RunScanner.scan_cons, hs']; exact h1, h2.imp_right
              fun ⟨hne, k, hk, hres, hs, hfin⟩ => ⟨hne, k + 1, by rw [List.length_cons]; omega,
                by rw [hres, Nat.add_assoc, Nat.add_comm 1 k], ?_, ?_⟩⟩
            · rw [List.take_succ_cons, Lzma2RunScanner.scan_cons, hs']
              exact hs
            · intro hlt
              rw [List.length_cons] at hlt
              exact hfin (by omega)

/-- Runs taken earlier do not matter to what is scanned next. -/
def Lzma2RunScanner.after (taken : List Lzma2Run) (s : Lzma2RunScanner) : Lzma2RunScanner :=
  { s with ready := taken ++ s.ready }

def HeaderByte.after (taken : List Lzma2Run) : HeaderByte → HeaderByte
  | .ended s => .ended (s.after taken)
  | .broken s => .broken (s.after taken)
  | .read s => .read (s.after taken)

theorem Lzma2RunScanner.closeRun_after (taken : List Lzma2Run) (s : Lzma2RunScanner) :
    (s.after taken).closeRun = s.closeRun.after taken := by
  cases hc : s.current with
  | none => simp only [Lzma2RunScanner.closeRun, Lzma2RunScanner.after, hc]
  | some o => simp only [Lzma2RunScanner.closeRun, Lzma2RunScanner.after, hc, List.append_assoc]

theorem Lzma2RunScanner.onControl_after (taken : List Lzma2Run) (s : Lzma2RunScanner) (b : ℕ) :
    (s.after taken).onControl b = ((s.onControl b).1, (s.onControl b).2.after taken) := by
  simp only [Lzma2RunScanner.onControl, Lzma2RunScanner.closeRun_after]
  generalize hs : (if decide (b = 0 ∨ 0xE0 ≤ b ∨ b = lzma2ControlCopyResetDic) = true then
    s.closeRun else s) = s'
  have hs' : (if decide (b = 0 ∨ 0xE0 ≤ b ∨ b = lzma2ControlCopyResetDic) = true then
      s.closeRun.after taken else s.after taken) = s'.after taken := by
    rw [← hs]
    split <;> rfl
  rw [hs']
  by_cases h0 : b = 0
  · simp only [if_pos h0]
    rfl
  · simp only [if_neg h0]
    cases hc : s'.current with
    | none => simp only [Lzma2RunScanner.after, hc]
    | some o => simp only [Lzma2RunScanner.after, hc]

theorem Lzma2RunScanner.update_after (taken : List Lzma2Run) (s : Lzma2RunScanner) (b : ℕ) :
    (s.after taken).update b = (s.update b).after taken := by
  have hframe : (s.after taken).frame.updateState b (s.after taken).prop =
      s.frame.updateState b s.prop := rfl
  simp only [Lzma2RunScanner.update, hframe]
  cases (s.frame.updateState b s.prop).1.state <;> rfl

theorem Lzma2RunScanner.header_after (taken : List Lzma2Run) (s : Lzma2RunScanner) (b : ℕ) :
    (s.after taken).header b = (s.header b).after taken := by
  simp only [Lzma2RunScanner.header]
  by_cases hc : s.frame.state = .control
  · have hc' : (s.after taken).frame.state = .control := hc
    rw [if_pos hc, if_pos hc', Lzma2RunScanner.onControl_after]
    cases hg : (s.onControl b).1 with
    | false => rfl
    | true => exact (s.onControl b).2.update_after taken b
  · have hc' : ¬ (s.after taken).frame.state = .control := hc
    rw [if_neg hc, if_neg hc']
    exact s.update_after taken b

theorem Lzma2RunScanner.scan_after (taken : List Lzma2Run) (s : Lzma2RunScanner) :
    (s.after taken).scan xs = (s.scan xs).after taken := by
  induction xs generalizing s with
  | nil => rfl
  | cons b xs ih =>
      have hnext : (s.after taken).next b = (s.next b).after taken := by
        unfold Lzma2RunScanner.next
        by_cases hstop : s.finished = true ∨ s.failed = true
        · have hstop' : (s.after taken).finished = true ∨ (s.after taken).failed = true := hstop
          rw [if_pos hstop, if_pos hstop']
        have hstop' : ¬ ((s.after taken).finished = true ∨ (s.after taken).failed = true) := hstop
        rw [if_neg hstop, if_neg hstop']
        by_cases hd : s.dataRemaining ≠ 0
        · have hd' : (s.after taken).dataRemaining ≠ 0 := hd
          rw [if_pos hd, if_pos hd']
          rfl
        have hd' : ¬ (s.after taken).dataRemaining ≠ 0 := hd
        rw [if_neg hd, if_neg hd', Lzma2RunScanner.header_after]
        cases s.header b.toNat <;> rfl
      rw [Lzma2RunScanner.scan_cons, Lzma2RunScanner.scan_cons, hnext, ih]

/-- Where a caller stands: what it handed over is scanned, but for the runs it took. -/
structure ScanTrace.At (t : ScanTrace) (xs : List UInt8) : Prop where
  given : ∃ done, xs = done ++ t.rest ∧ t.s.after t.taken = Lzma2RunScanner.new.scan done
  failed : t.failed = false

theorem ScanTrace.start_at (xs : List UInt8) : (ScanTrace.start xs).At xs :=
  ⟨⟨[], rfl, rfl⟩, rfl⟩

/-- No prefix breaks the stream off, and payloads stay inside it. -/
def Scannable (xs : List UInt8) : Prop :=
  ∀ done rest, xs = done ++ rest → (Lzma2RunScanner.new.scan done).failed = false ∧
    ((Lzma2RunScanner.new.scan done).finished = true →
      (Lzma2RunScanner.new.scan done).dataRemaining = 0) ∧
    (Lzma2RunScanner.new.scan done).dataRemaining ≤ rest.length

/-- `feed` and `skip_payload` both scan what they take. -/
theorem ScanTrace.At.step {t : ScanTrace} (h : t.At xs) (hxs : Scannable xs) (op : ScanOp) :
    (t.step op).At xs := by
  obtain ⟨⟨done, hdone, hs⟩, hfail⟩ := h
  obtain ⟨he, hfin, hroom⟩ := hxs done t.rest hdone
  rw [← hs] at he hfin hroom
  cases op with
  | feed n =>
      have hloop : FeedEnd t.s (t.rest.take n) 0 _ := feedLoop_end le_rfl he
      obtain ⟨hscan, hend⟩ := hloop
      have hfeed : t.s.feed (t.rest.take n) =
          feedLoop (t.rest.take n).length t.s (t.rest.take n) 0 := by
        unfold Lzma2RunScanner.feed
        rw [if_neg (show ¬ t.s.failed = true by rw [show t.s.failed = false from he]; simp)]
      rw [← hfeed] at hscan hend
      simp only [ScanTrace.step]
      obtain ⟨hbad, -⟩ | ⟨-, k, hk, hres, hsk, -⟩ := hend
      · have hall := (hxs (done ++ t.rest.take n) (t.rest.drop n) (by
          rw [List.append_assoc, List.take_append_drop, hdone])).1
        rw [Lzma2RunScanner.scan_append, ← hs, Lzma2RunScanner.scan_after, ← hscan] at hall
        exact absurd (hall.symm.trans hbad) (by simp)
      · generalize t.s.feed (t.rest.take n) = r at *
        obtain ⟨s', res⟩ := r
        obtain rfl : res = .ok (0 + k) := hres
        obtain rfl : s' = t.s.scan ((t.rest.take n).take k) := hsk
        rw [List.length_take] at hk
        refine ⟨⟨done ++ t.rest.take k, ?_, ?_⟩, hfail⟩
        · rw [List.append_assoc, Nat.zero_add, List.take_append_drop, hdone]
        · rw [Lzma2RunScanner.scan_append, ← hs, Lzma2RunScanner.scan_after, List.take_take,
            Nat.min_eq_left (by omega : k ≤ n)]
  | skip n =>
      have hk : min n t.s.dataRemaining ≤ t.rest.length := (Nat.min_le_right _ _).trans hroom
      by_cases hf : t.s.finished = true
      · have h0 : t.s.dataRemaining = 0 := hfin hf
        refine ⟨⟨done, ?_, ?_⟩, hfail⟩
        · simp only [ScanTrace.step, Lzma2RunScanner.skipPayload, h0, Nat.min_zero, List.drop_zero]
          exact hdone
        · simp only [ScanTrace.step, Lzma2RunScanner.skipPayload, h0, Nat.min_zero, Nat.add_zero,
            Nat.sub_zero]
          rw [← hs, ← h0]
      · have hlen : (t.rest.take (min n t.s.dataRemaining)).length ≤ t.s.dataRemaining := by
          rw [List.length_take]
          omega
        have hscan := Lzma2RunScanner.scan_payload (s := t.s) (by simpa using hf) he hlen
        rw [List.length_take, Nat.min_eq_left hk] at hscan
        refine ⟨⟨done ++ t.rest.take (min n t.s.dataRemaining), ?_, ?_⟩, hfail⟩
        · simp only [ScanTrace.step, Lzma2RunScanner.skipPayload]
          rw [List.append_assoc, List.take_append_drop, hdone]
        · rw [Lzma2RunScanner.scan_append, ← hs, Lzma2RunScanner.scan_after, hscan]
          rfl
  | take =>
      cases hr : t.s.ready with
      | nil =>
          refine ⟨⟨done, ?_, ?_⟩, ?_⟩
          · simp only [ScanTrace.step, Lzma2RunScanner.nextRun, hr]
            exact hdone
          · simp only [ScanTrace.step, Lzma2RunScanner.nextRun, hr]
            exact hs
          · simp only [ScanTrace.step, Lzma2RunScanner.nextRun, hr]
            exact hfail
      | cons run ready =>
          refine ⟨⟨done, ?_, ?_⟩, ?_⟩
          · simp only [ScanTrace.step, Lzma2RunScanner.nextRun, hr]
            exact hdone
          · simp only [ScanTrace.step, Lzma2RunScanner.nextRun, hr]
            rw [← hs]
            simp only [Lzma2RunScanner.after, hr, List.append_assoc, List.singleton_append]
          · simp only [ScanTrace.step, Lzma2RunScanner.nextRun, hr]
            exact hfail

theorem ScanTrace.At.run {t : ScanTrace} (h : t.At xs) (hxs : Scannable xs) (ops : List ScanOp) :
    (ops.foldl ScanTrace.step t).At xs := by
  induction ops generalizing t with
  | nil => exact h
  | cons op ops ih => exact ih (h.step hxs op)

end
end LzmaTurbo.Lzma2
