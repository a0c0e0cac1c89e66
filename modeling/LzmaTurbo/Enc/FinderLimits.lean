import LzmaTurbo.Enc.FinderWalk

/-!
# Reading ahead

The window is filled before the finder reaches its end, and makes room at its start. Positions
start over when they run out.
-/
namespace LzmaTurbo.Enc
open Machine

/-- What reading changes. -/
structure Refill where
  stream : SeqInStream
  buffer : ℕ
  bufBase : List UInt8
  streamPos : ℕ
  streamEndWasReached : Bool
  result : Except FindError Unit

namespace MatchFinder

def refilled (m : MatchFinder) (w : Refill) : MatchFinder :=
  { m with
    stream := w.stream
    buffer := w.buffer
    bufBase := w.bufBase
    streamPos := w.streamPos
    streamEndWasReached := w.streamEndWasReached
    result := w.result }

/-- `k` positions further. -/
def passed (m : MatchFinder) (k : ℕ) : MatchFinder :=
  { m with
    cyclicBufferPos := m.cyclicBufferPos + k
    buffer := m.buffer + k
    pos := wrappingAdd32 m.pos k }

section
variable {m : MatchFinder} {src : List UInt8} {P A k : ℕ}

theorem passed_windowed (h : Windowed m src P A) (hk : k ≤ A) :
    Windowed (m.passed k) src (P + k) (A - k) := by
  have hin := h.inside
  have hle := h.buffer_le
  have hsum : P + k + (A - k) = P + A := by omega
  constructor
  · have havail := h.avail
    have hpos := h.pos_lt
    simp only [getNumAvailableBytes, wrappingSub32, passed, wrappingAdd32] at havail ⊢
    omega
  · exact Nat.mod_lt _ (by norm_num)
  · omega
  · intro i hi
    rw [show i + (P + k - (m.passed k).buffer) = i + (P - m.buffer) by
      change i + (P + k - (m.buffer + k)) = _
      omega]
    exact h.window i (by
      change i < m.buffer + k + (A - k) at hi
      omega)
  · exact Nat.add_le_add_right hle k
  · exact h.history.imp (congrArg (· + k)) fun hkeep => hkeep.trans (Nat.le_add_right _ _)
  · exact h.block
  · intro hd
    have hfits := h.fits hd
    change m.buffer + k + (A - k) ≤ m.blockSize
    omega
  · intro hd
    rw [hsum]
    exact h.rest hd
  · intro he
    rw [hsum]
    exact h.ended he
  · exact h.direct
  · exact h.roomy

/-! ## The stream -/

/-- Bytes of the stream behind those in the window. -/
theorem received {n : ℕ} {bytes : List UInt8} (h : Windowed m src P A)
    (hdirect : m.directInput = false) (hbytes : m.stream.data.take n = bytes)
    (hroom : m.buffer + A + bytes.length ≤ m.blockSize) (hblock : m.blockSize < 2 ^ 32) :
    Windowed { m with
      stream := { m.stream with
        data := m.stream.data.drop n
        calls := m.stream.calls + 1 }
      bufBase := m.bufBase.take (m.buffer + A) ++ bytes ++
        m.bufBase.drop (m.buffer + A + bytes.length)
      streamPos := wrappingAdd32 m.streamPos bytes.length } src P (A + bytes.length) := by
  have hin := h.inside
  have hle := h.buffer_le
  have hfits := h.block hdirect
  have hrest := h.rest hdirect
  have hlen : bytes.length = min n (src.length - (P + A)) := by
    rw [← hbytes, List.length_take, hrest, List.length_drop]
  have htake : (m.bufBase.take (m.buffer + A)).length = m.buffer + A := by
    rw [List.length_take]
    omega
  constructor
  · have havail := h.avail
    have hpos := h.pos_lt
    simp only [getNumAvailableBytes, wrappingSub32, wrappingAdd32] at havail ⊢
    omega
  · exact h.pos_lt
  · omega
  · intro i hi
    by_cases hold : i < m.buffer + A
    · rw [List.append_assoc, List.getElem?_append_left (by omega),
        List.getElem?_take_of_lt hold]
      exact h.window i hold
    · rw [List.getElem?_append_left (by
          rw [List.length_append, htake]
          change i < m.buffer + (A + bytes.length) at hi
          omega), List.getElem?_append_right (by omega), htake, ← hbytes,
        List.getElem?_take_of_lt (by
          change i < m.buffer + (A + bytes.length) at hi
          omega), hrest, List.getElem?_drop]
      congr 1
      change P + A + (i - (m.buffer + A)) = i + (P - m.buffer)
      omega
  · exact hle
  · exact h.history
  · intro _
    change m.blockSize ≤ (m.bufBase.take (m.buffer + A) ++ bytes ++
      m.bufBase.drop (m.buffer + A + bytes.length)).length
    rw [List.length_append, List.length_append, htake, List.length_drop]
    omega
  · intro _
    change m.buffer + (A + bytes.length) ≤ m.blockSize
    omega
  · intro _
    change m.stream.data.drop n = _
    rw [hrest, List.drop_drop]
    rcases Nat.le_total n (src.length - (P + A)) with hn | hn
    · rw [hlen, Nat.min_eq_left hn, Nat.add_assoc]
    · rw [List.drop_eq_nil_of_le (by omega), List.drop_eq_nil_of_le (by omega)]
  · intro he
    have := h.ended he
    change P + (A + bytes.length) = src.length
    omega
  · exact h.direct
  · exact h.roomy

theorem readLoop_spec {fuel : ℕ} (h : Windowed m src P A) (hflow : m.Flowing)
    (hA : A ≤ m.keepSizeAfter) (hroom : m.buffer + m.keepSizeAfter < m.blockSize)
    (hblock : m.blockSize < 2 ^ 32) (hfuel : m.stream.data.length < fuel) : ∃ w A',
      readLoop fuel m = .ok (m.refilled w) ∧ Windowed (m.refilled w) src P A' ∧ A ≤ A' ∧
      ((m.refilled w).Flowing → m.keepSizeAfter < A') := by
  induction fuel generalizing m A with
  | zero => omega
  | succ fuel ih =>
      have hdirect : m.directInput = false := by
        by_contra hd
        have := h.direct (by simpa using hd)
        rw [hflow.1] at this
        cases this
      have hfits := h.block hdirect
      have hrest := h.rest hdirect
      have hin := h.inside
      rw [readLoop, h.avail, sub_ok (by omega), ok_bind]
      rw [if_neg (by omega), if_neg (by omega)]
      generalize hsize : m.blockSize - (m.buffer + A) = size
      unfold SeqInStream.read
      by_cases hfails : m.stream.fails m.stream.calls = true
      · rw [if_pos hfails]
        refine ⟨⟨_, m.buffer, m.bufBase, m.streamPos, m.streamEndWasReached, .error .stream⟩, A,
          rfl, ?_, le_rfl, fun hf => by cases hf.2⟩
        exact ⟨h.avail, h.pos_lt, h.inside, h.window, h.buffer_le, h.history, h.block, h.fits,
          h.rest, h.ended, h.direct, h.roomy⟩
      · rw [if_neg hfails]
        simp only
        generalize hn : min size (m.stream.sizes m.stream.calls + 1) = n
        cases hbytes : m.stream.data.take n with
        | nil =>
            have hempty : m.stream.data = [] := by
              rcases List.take_eq_nil_iff.mp hbytes with hzero | hnil
              · omega
              · exact hnil
            have hend : P + A = src.length := by
              rw [hempty, eq_comm, List.drop_eq_nil_iff] at hrest
              omega
            refine ⟨⟨_, m.buffer, m.bufBase, m.streamPos, true, m.result⟩, A, rfl, ?_, le_rfl,
              fun hf => by cases hf.1⟩
            refine ⟨h.avail, h.pos_lt, h.inside, h.window, h.buffer_le, h.history, h.block, h.fits,
              fun hd => ?_, fun _ => hend, fun _ => rfl, h.roomy⟩
            change m.stream.data.drop n = _
            rw [hempty, List.drop_nil, ← hrest, hempty]
        | cons b bs =>
            have hlen : (b :: bs).length = min n m.stream.data.length := by
              rw [← hbytes, List.length_take]
            have hdata : m.stream.data.length = src.length - (P + A) := by
              rw [hrest, List.length_drop]
            have hpos : 0 < (b :: bs).length := Nat.succ_pos _
            have havail := h.avail
            have hmore := received h hdirect hbytes (by omega) (by omega)
            simp only
            by_cases hstop : m.keepSizeAfter < A + (b :: bs).length
            · refine ⟨⟨_, m.buffer, _, _, m.streamEndWasReached, m.result⟩, _, ?_, hmore,
                Nat.le_add_right _ _, fun _ => hstop⟩
              rw [if_pos (hstop.trans_eq hmore.avail.symm)]
              rfl
            · obtain ⟨w, A', hloop, hw, hle, hf⟩ := ih hmore hflow (not_lt.mp hstop) hroom hblock
                (by
                change (m.stream.data.drop n).length < fuel
                rw [List.length_drop]
                omega)
              refine ⟨w, A', ?_, hw, (Nat.le_add_right _ _).trans hle, hf⟩
              rw [if_neg (fun hlt => hstop (hlt.trans_eq hmore.avail))]
              exact hloop

/-- More than must be held is there afterwards, or there is no more. -/
theorem readBlock_spec (h : Windowed m src P A) (hA : m.Flowing → A ≤ m.keepSizeAfter)
    (hroom : m.Flowing → m.buffer + m.keepSizeAfter < m.blockSize)
    (hblock : m.blockSize < 2 ^ 32) : ∃ w A',
      m.readBlock = .ok (m.refilled w) ∧ Windowed (m.refilled w) src P A' ∧ A ≤ A' ∧
      ((m.refilled w).Flowing → m.keepSizeAfter < A') ∧ (¬ m.Flowing → A' = A) := by
  unfold readBlock
  by_cases hflow : m.Flowing
  · rw [if_pos hflow]
    obtain ⟨w, A', hread, hw, hle, hf⟩ :=
      readLoop_spec h hflow (hA hflow) (hroom hflow) hblock (Nat.lt_succ_self _)
    exact ⟨w, A', hread, hw, hle, hf, fun hstill => absurd hflow hstill⟩
  · rw [if_neg hflow]
    exact ⟨⟨m.stream, m.buffer, m.bufBase, m.streamPos, m.streamEndWasReached, m.result⟩, A, rfl, h,
      le_rfl, fun hf => absurd hf hflow, fun _ => rfl⟩

theorem moveBlock_spec (h : Windowed m src P A) (hkeep : m.keepSizeBefore ≤ m.buffer) : ∃ w,
    m.moveBlock = .ok (m.refilled w) ∧ Windowed (m.refilled w) src P A ∧
      w.buffer < m.keepSizeBefore + kBlockMoveAlign := by
  have hlong := h.length_le
  have hle := h.buffer_le
  unfold moveBlock
  rw [if_neg (by omega), h.avail]
  simp only
  generalize hoffset : m.buffer - m.keepSizeBefore = offset
  have hlow : offset &&& (kBlockMoveAlign - 1) < kBlockMoveAlign :=
    lt_of_le_of_lt Nat.and_le_right (by decide)
  have hpart : offset &&& (kBlockMoveAlign - 1) ≤ offset := Nat.and_le_left
  generalize offset &&& (kBlockMoveAlign - 1) = low at hlow hpart ⊢
  rw [if_neg (by omega)]
  refine ⟨⟨m.stream, low + m.keepSizeBefore, _, m.streamPos, _, _⟩, rfl, ?_, by
    change low + m.keepSizeBefore < _
    omega⟩
  have hlen : ((m.bufBase.drop (offset - low)).take (low + m.keepSizeBefore + A)).length =
      low + m.keepSizeBefore + A := by
    rw [List.length_take, List.length_drop]
    omega
  refine ⟨h.avail, h.pos_lt, h.inside, fun i hi => ?_, ?_, ?_, fun hd => ?_, fun hd => ?_, h.rest,
    h.ended, h.direct, h.roomy⟩
  · change i < low + m.keepSizeBefore + A at hi
    change ((m.bufBase.drop (offset - low)).take (low + m.keepSizeBefore + A) ++ _)[i]? =
      src[i + (P - (low + m.keepSizeBefore))]?
    rw [List.getElem?_append_left (by omega), List.getElem?_take_of_lt hi, List.getElem?_drop,
      h.window _ (by omega)]
    congr 1
    omega
  · change low + m.keepSizeBefore ≤ P
    omega
  · exact .inr (Nat.le_add_left _ _)
  · change m.blockSize ≤ ((m.bufBase.drop (offset - low)).take (low + m.keepSizeBefore + A) ++
      m.bufBase.drop (low + m.keepSizeBefore + A)).length
    rw [List.length_append, hlen, List.length_drop]
    exact (h.block hd).trans (by omega)
  · have hfits := h.fits hd
    change low + m.keepSizeBefore + A ≤ m.blockSize
    omega

theorem flowing_direct (h : Windowed m src P A) (hf : m.Flowing) : m.directInput = false := by
  by_contra hd
  have hend := h.direct (Bool.eq_true_of_not_eq_false hd)
  rw [hf.1] at hend
  cases hend

theorem readAhead_spec (hc : m.toFinderConfig.Ok) (h : Windowed m src P A)
    (hA : m.Flowing → m.keepSizeAfter ≤ A) : ∃ w A',
      m.readAhead = .ok (m.refilled w) ∧ Windowed (m.refilled w) src P A' ∧ A ≤ A' ∧
      ((m.refilled w).Flowing → m.keepSizeAfter < A') ∧ (¬ m.Flowing → A' = A) := by
  have hblock := hc.blockSize
  have hle := h.buffer_le
  have hin := h.inside
  unfold readAhead
  rw [h.avail]
  by_cases hexact : m.keepSizeAfter = A
  · rw [if_pos hexact]
    unfold needMove
    by_cases hflow : m.Flowing
    · have hdirect := flowing_direct h hflow
      have hfits := h.fits hdirect
      have hroomy := h.roomy
      rw [if_pos hflow, sub_ok (by omega), ok_bind, ok_bind]
      by_cases hmove : m.blockSize - m.buffer ≤ m.keepSizeAfter
      · -- the window is moved only when a part of it is no longer needed
        have hroom : m.keepSizeBefore + m.keepSizeAfter + kBlockMoveAlign ≤ m.blockSize := by
          rcases hroomy with hd | hroom | hshort
          · rw [hdirect] at hd
            cases hd
          · exact hroom
          · omega
        obtain ⟨w, hmoved, hwindow, hbuffer⟩ := moveBlock_spec h (by omega)
        obtain ⟨w', A', hread, hwindow', hle', hmore, -⟩ := readBlock_spec hwindow
          (fun _ => hexact.ge) (fun _ => by
            change w.buffer + m.keepSizeAfter < m.blockSize
            omega) hblock
        refine ⟨w', A', ?_, hwindow', hle', hmore, fun hstill => absurd hflow hstill⟩
        rw [decide_eq_true hmove, if_pos rfl, hmoved, ok_bind]
        exact hread
      · rw [decide_eq_false hmove, if_neg Bool.false_ne_true, ok_bind]
        exact readBlock_spec h (fun _ => hexact.ge) (fun _ => by omega) hblock
    · simp only [if_neg hflow, ok_bind, Bool.false_eq_true, if_false]
      exact readBlock_spec h (fun hf => absurd hf hflow) (fun hf => absurd hf hflow) hblock
  · rw [if_neg hexact]
    exact ⟨⟨m.stream, m.buffer, m.bufBase, m.streamPos, m.streamEndWasReached, m.result⟩, A, rfl, h,
      le_rfl, fun hf => lt_of_le_of_ne (hA hf) hexact, fun _ => rfl⟩

end
end MatchFinder

/-! ## Positions starting over -/

theorem normalize3_ok {items : Array ℕ} (subValue start n : ℕ) (h : start + n ≤ items.size) :
    ∃ items', normalize3 subValue start n items = .ok items' ∧ items'.size = items.size ∧
      ∀ i v, items[i]? = some v →
        items'[i]? = some (if start ≤ i ∧ i < start + n then v - subValue else v) := by
  refine ⟨_, if_pos h, Array.size_mapIdx, fun i v hv => ?_⟩
  rw [Array.getElem?_mapIdx, hv]
  rfl

section
variable {c : FinderConfig} {src : List UInt8} {o pos cyc s : ℕ} {hash hash' : Array ℕ}

theorem Entry.lowered {hashAt : ℕ → Option ℕ} {i v : ℕ} (h : Entry hashAt o pos i v) :
    Entry hashAt (o + s) (pos - s) i (v - s) := by
  rcases h with rfl | ⟨h1, h2, h3⟩
  · exact .inl (Nat.zero_sub s)
  · by_cases hs : v ≤ s
    · exact .inl (Nat.sub_eq_zero_of_le hs)
    · refine .inr ⟨by omega, by omega, ?_⟩
      rw [← h3]
      congr 1
      omega

/-- Every place that counts is lowered. -/
structure Lowered (c : FinderConfig) (s : ℕ) (hash hash' : Array ℕ) : Prop where
  size : hash'.size = hash.size
  tables : ∀ i v, i < c.hashMask + 1 + c.fixedHashSize → hash[i]? = some v →
    hash'[i]? = some (v - s)
  son : ∀ i v, c.sonBase ≤ i → i < c.sonBase + c.cyclicBufferSize → hash[i]? = some v →
    hash'[i]? = some (v - s)

theorem Lowered.low (h : Lowered c s hash hash') (hc : c.Ok) (hl : LowTables src o pos hash) :
    LowTables src (o + s) (pos - s) hash' := by
  have hfix := hc.fixedHashSize
  simp only [kFix4HashSize] at hfix
  constructor
  · intro i hi
    obtain ⟨v, hv, hentry⟩ := hl.two i hi
    exact ⟨v - s, h.tables i v (by omega) hv, hentry.lowered⟩
  · intro i hi
    obtain ⟨v, hv, hentry⟩ := hl.three i hi
    exact ⟨v - s, h.tables _ v (by simp only [kFix3HashSize]; omega) hv, hentry.lowered⟩

theorem Lowered.big (h : Lowered c s hash hash') (hl : BigTable c pos hash) (hs : s < pos) :
    BigTable c (pos - s) hash' := by
  intro i hi
  obtain ⟨v, hv, hlt⟩ := hl i hi
  exact ⟨v - s, h.tables _ v (by omega) hv, by omega⟩

theorem Lowered.links (h : Lowered c s hash hash') (hl : Links c pos cyc hash)
    (hcyc : cyc ≤ c.cyclicBufferSize) : Links c (pos - s) cyc hash' where
  size := by
    rw [h.size]
    exact hl.size
  back d h1 h2 h3 := by
    obtain ⟨v, hv, hlt⟩ := hl.back d h1 (by omega) h3
    refine ⟨v - s, h.son _ v ?_ ?_ hv, by omega⟩
    · exact Nat.le_add_right _ _
    · unfold sonIndex
      split <;> omega

end

/-- The ring starts over with its places as they are. -/
theorem Links.wrap {c : FinderConfig} {pos : ℕ} {hash : Array ℕ}
    (h : Links c pos c.cyclicBufferSize hash) : Links c pos 0 hash where
  size := h.size
  back d h1 h2 h3 := by
    have hsame : sonIndex c 0 d = sonIndex c c.cyclicBufferSize d := by
      unfold sonIndex
      rw [if_pos (show 0 < d from h1), if_neg (by omega), Nat.zero_add]
    rw [hsame]
    exact h.back d h1 h2 h3

theorem Queue.restart {m : MatchFinder} {pos n pos' n' : ℕ} (h : Queue m pos n 0) :
    Queue m pos' n' 0 :=
  ⟨h.headsEnd, h.bound, h.pos_size, Nat.zero_le _, fun _ => rfl, fun j hj => by omega⟩

namespace MatchFinder

theorem numSonRefs_ok {m : MatchFinder} (hc : m.toFinderConfig.Ok) :
    m.numSonRefs = m.cyclicBufferSize := by
  unfold numSonRefs
  rcases hc.kind with hk | hk <;> rw [hk] <;> rfl

section
variable {m : MatchFinder} {src : List UInt8} {P A o : ℕ}

/-- As many positions stay as the dictionary has. -/
theorem normalize_spec (hc : m.toFinderConfig.Ok) (h : Windowed m src P A) (hpos : m.pos = 0)
    (ht : Tabled m src o (2 ^ 32) m.cyclicBufferPos 0 0) (hP : P + 1 = 2 ^ 32 + o)
    (hcyc : m.cyclicBufferPos ≤ m.cyclicBufferSize) : ∃ pos streamPos hash o',
      m.normalize = .ok { m with pos, streamPos, hash } ∧
      Windowed { m with pos, streamPos, hash } src P A ∧ 0 < pos ∧ P + 1 = pos + o' ∧
      Tabled { m with pos, streamPos, hash } src o' pos m.cyclicBufferPos 0 0 := by
  have hhist := hc.historySize_lt
  have hson := hc.sonBase
  have hsize := ht.links.size
  generalize hs : 2 ^ 32 - (m.historySize + 1) = s
  have hsub : wrappingSub32 (wrappingSub32 m.pos m.historySize) 1 = s := by
    simp only [wrappingSub32, hpos]
    omega
  obtain ⟨hash, hnorm, hsize', hget⟩ := @normalize3_ok m.hash s 0
    (m.hashMask + 1 + m.fixedHashSize) (by omega)
  obtain ⟨hash', hnorm', hsize'', hget'⟩ := normalize3_ok s m.sonBase
    m.numSonRefs (show m.sonBase + m.numSonRefs ≤ hash.size by
      rw [numSonRefs_ok hc]
      omega)
  have hlow : Lowered m.toFinderConfig s m.hash hash' := by
    refine ⟨hsize''.trans hsize', fun i v hi hv => ?_, fun i v h1 h2 hv => ?_⟩
    · have hone := hget i v hv
      rw [if_pos ⟨Nat.zero_le i, by omega⟩] at hone
      have htwo := hget' i _ hone
      rwa [if_neg (by omega)] at htwo
    · have hone := hget i v hv
      rw [if_neg (by omega)] at hone
      have htwo := hget' i _ hone
      rwa [if_pos ⟨h1, by rwa [numSonRefs_ok hc]⟩] at htwo
  have hnew : wrappingSub32 m.pos s = m.historySize + 1 := by
    simp only [wrappingSub32, hpos]
    omega
  have hleft : 2 ^ 32 - s = m.historySize + 1 := by omega
  refine ⟨m.historySize + 1, wrappingSub32 m.streamPos s, hash', o + s, ?_, ?_, Nat.succ_pos _,
    by omega, ?_⟩
  · unfold normalize
    simp only [hsub, hnorm, ok_bind, hnorm', hnew]
  · have havail := h.avail
    refine ⟨?_, hhist, h.inside, h.window, h.buffer_le, h.history, h.block, h.fits, h.rest,
      h.ended, h.direct, h.roomy⟩
    simp only [getNumAvailableBytes, wrappingSub32, hpos] at havail ⊢
    omega
  · rw [← hleft]
    exact ⟨hlow.low hc ht.low, hlow.big ht.big (by omega), hlow.links ht.links hcyc,
      { ht.queue.restart with }⟩

theorem positionsLeft_spec {pos : ℕ} (hpos : pos < 2 ^ 32) :
    0 < positionsLeft pos ∧ positionsLeft pos < 2 ^ 32 ∧ pos + positionsLeft pos ≤ 2 ^ 32 := by
  have hwrap : wrappingSub32 kMaxValForNormalize pos = (2 ^ 32 - pos) % 2 ^ 32 := by
    rw [wrappingSub32, kMaxValForNormalize, Nat.zero_add]
  unfold positionsLeft
  simp only [hwrap]
  split <;> omega

theorem setLimits_spec (hc : m.toFinderConfig.Ok) (h : Windowed m src P A)
    (hcyc : m.cyclicBufferPos < m.cyclicBufferSize) (hf : m.Flowing → m.keepSizeAfter < A) :
    ∃ lenLimit posLimit n, m.setLimits = .ok { m with lenLimit, posLimit } ∧
      Limited { m with lenLimit, posLimit } A n := by
  have hbytes := hc.hashBytes
  have hmax := hc.matchMaxLen
  have hkeep := hc.keepSizeAfter
  obtain ⟨hn1, hn2, hn3⟩ := positionsLeft_spec h.pos_lt
  obtain ⟨k, mm, hpair, hk1, hk2, hk3, hk4, hk5, hk6⟩ : ∃ k mm,
      lenLimits m.keepSizeAfter m.matchMaxLen A = (k, mm) ∧ k ≤ A ∧ mm + k ≤ A + 1 ∧
      mm ≤ m.matchMaxLen ∧ (0 < A → 0 < k) ∧ (mm < m.numHashBytes → A < m.numHashBytes) ∧
      (m.Flowing → m.keepSizeAfter + k ≤ A) := by
    unfold lenLimits
    by_cases hfar : m.keepSizeAfter < A
    · exact ⟨_, _, if_pos hfar, by omega, by omega, le_rfl, fun _ => by omega, fun hlt => by omega,
        fun _ => by omega⟩
    · have hstill : ¬ m.Flowing := fun hflow => hfar (hf hflow)
      rw [if_neg hfar]
      by_cases hlong : m.matchMaxLen ≤ A
      · exact ⟨_, _, if_pos hlong, by omega, by omega, le_rfl, fun _ => by omega,
          fun hlt => by omega, fun hflow => absurd hflow hstill⟩
      · refine ⟨_, _, if_neg hlong, ?_, ?_, by omega, fun hA => ?_, id,
          fun hflow => absurd hflow hstill⟩
        · split <;> omega
        · split <;> omega
        · rw [if_pos (by omega)]
          exact Nat.one_pos
  generalize hn : min (m.cyclicBufferSize - m.cyclicBufferPos) (positionsLeft m.pos) = n
  refine ⟨mm, wrappingAdd32 m.pos (min k n), min k n, ?_, ?_⟩
  · unfold setLimits
    rw [sub_ok hcyc.le, ok_bind, h.avail]
    simp only [hpair, hn]
  · constructor
    · change wrappingAdd32 m.pos (min k n) = (m.pos + min k n) % 2 ^ 32
      rw [wrappingAdd32]
    · change m.pos + min k n ≤ 2 ^ 32
      omega
    · omega
    · omega
    · change m.cyclicBufferPos + min k n ≤ m.cyclicBufferSize
      omega
    · intro hA
      have := hk4 hA
      omega
    · change mm + min k n ≤ A + 1
      omega
    · exact hk3
    · exact hk5
    · intro hflow
      have := hk6 hflow
      change m.keepSizeAfter + min k n ≤ A
      omega

/-- New limits, before the next position is entered. -/
theorem limits_stands (hc : m.toFinderConfig.Ok) (h : Windowed m src P A)
    (hcyc : m.cyclicBufferPos < m.cyclicBufferSize) (hf : m.Flowing → m.keepSizeAfter < A)
    (ht : m.numHashBytes ≤ A → 0 < m.pos ∧ ∃ o, P + 1 = m.pos + o ∧
      Tabled m src o m.pos m.cyclicBufferPos 0 0) :
    ∃ m', m.setLimits = .ok m' ∧ Stands m' src P A ∧ m'.toFinderConfig = m.toFinderConfig := by
  obtain ⟨lenLimit, posLimit, n, hset, hl⟩ := setLimits_spec hc h hcyc hf
  refine ⟨_, hset, ⟨hc, ⟨h.avail, h.pos_lt, h.inside, h.window, h.buffer_le, h.history, h.block,
    h.fits, h.rest, h.ended, h.direct, h.roomy⟩, n, hl, fun hlen => ?_⟩, rfl⟩
  have hbytes := hc.hashBytes
  have hlim := hl.lenLimit
  have hn := hl.n_pos
  change m.numHashBytes ≤ lenLimit at hlen
  change lenLimit + n ≤ A + 1 at hlim
  obtain ⟨hpos, o, hP, hlow, hbig, hlinks, hqueue⟩ := ht (by omega)
  exact ⟨hpos, o, 0, hP, hlow, hbig, hlinks, { hqueue.restart with }⟩

/-- The finder at a limit, `pos` counted on from the last one. -/
theorem checkLimits_spec {pos : ℕ} (hc : m.toFinderConfig.Ok) (h : Windowed m src P A)
    (hpos : m.pos = pos % 2 ^ 32) (hle : pos ≤ 2 ^ 32)
    (hcyc : m.cyclicBufferPos ≤ m.cyclicBufferSize) (hA : m.Flowing → m.keepSizeAfter ≤ A)
    (ht : m.numHashBytes ≤ A → 0 < pos ∧ ∃ o, P + 1 = pos + o ∧
      Tabled m src o pos m.cyclicBufferPos 0 0) : ∃ m' A', m.checkLimits = .ok m' ∧
      Stands m' src P A' ∧ A ≤ A' ∧ m'.toFinderConfig = m.toFinderConfig := by
  have hbytes := hc.matchMaxLen
  have hkeep := hc.keepSizeAfter
  obtain ⟨w, A', hread, hw, hmore, hf, hidle⟩ := readAhead_spec hc h hA
  have hfull : m.numHashBytes ≤ A' → m.numHashBytes ≤ A := by
    intro hA'
    by_cases hflow : m.Flowing
    · have := hA hflow
      omega
    · rwa [hidle hflow] at hA'
  obtain ⟨m2, hrestart, hc2, hcyc2, hw2, hf2, ht2⟩ : ∃ m2, (m.refilled w).restart = .ok m2 ∧
      m2.toFinderConfig = m.toFinderConfig ∧ m2.cyclicBufferPos = m.cyclicBufferPos ∧
      Windowed m2 src P A' ∧ (m2.Flowing → m2.keepSizeAfter < A') ∧
      (m2.numHashBytes ≤ A' → 0 < m2.pos ∧ ∃ o, P + 1 = m2.pos + o ∧
        Tabled m2 src o m2.pos m2.cyclicBufferPos 0 0) := by
    unfold restart
    rw [hw.avail]
    by_cases hover : (m.refilled w).pos = kMaxValForNormalize ∧ (m.refilled w).numHashBytes ≤ A'
    · obtain ⟨hzero, hA'⟩ := hover
      change m.pos = 0 at hzero
      obtain ⟨hpos0, o, hP, ht⟩ := ht (hfull hA')
      obtain rfl : pos = 2 ^ 32 := by omega
      obtain ⟨pos', streamPos', hash', o', hnorm, hw', hpos', hP', ht'⟩ :=
        @normalize_spec (m.refilled w) src P A' o hc hw hzero
          ⟨ht.low, ht.big, ht.links, { ht.queue with }⟩ hP hcyc
      rw [if_pos ⟨hzero, hA'⟩]
      exact ⟨_, hnorm, rfl, rfl, hw', hf, fun _ => ⟨hpos', o', hP', ht'⟩⟩
    · rw [if_neg hover]
      refine ⟨_, rfl, rfl, rfl, hw, hf, fun hA' => ?_⟩
      obtain ⟨hpos0, o, hP, ht⟩ := ht (hfull hA')
      have hne : m.pos ≠ 0 := fun hzero => hover ⟨hzero, hA'⟩
      have hsame : m.pos = pos := by omega
      refine ⟨Nat.pos_of_ne_zero hne, o, ?_, ?_⟩
      · change P + 1 = m.pos + o
        omega
      · change Tabled (m.refilled w) src o m.pos m.cyclicBufferPos 0 0
        rw [hsame]
        exact ⟨ht.low, ht.big, ht.links, { ht.queue with }⟩
  unfold checkLimits
  simp only [hread, ok_bind, hrestart]
  have hring := hc.cyclicBufferSize
  by_cases hend : m2.cyclicBufferPos = m2.cyclicBufferSize
  · rw [if_pos hend]
    obtain ⟨m', hset, hstands, hconfig⟩ :=
      @limits_stands { m2 with cyclicBufferPos := 0 } src P A' (hc2 ▸ hc)
        ⟨hw2.avail, hw2.pos_lt, hw2.inside, hw2.window, hw2.buffer_le, hw2.history, hw2.block,
          hw2.fits, hw2.rest, hw2.ended, hw2.direct, hw2.roomy⟩ (by
          change 0 < m2.cyclicBufferSize
          rw [hc2, hring]
          exact Nat.succ_pos _) hf2 fun hA' => by
          obtain ⟨hpos', o, hP, ht⟩ := ht2 hA'
          have hlinks := ht.links
          rw [hend] at hlinks
          exact ⟨hpos', o, hP, ht.low, ht.big, hlinks.wrap, { ht.queue with }⟩
    exact ⟨m', A', hset, hstands, hmore, hconfig.trans hc2⟩
  · rw [if_neg hend]
    obtain ⟨m', hset, hstands, hconfig⟩ := limits_stands (hc2 ▸ hc) hw2 (by
      rw [hcyc2, hc2] at hend ⊢
      omega) hf2 ht2
    exact ⟨m', A', hset, hstands, hmore, hconfig.trans hc2⟩

/-- `k` positions further, and at a limit when it is reached. -/
theorem passed_spec {k n : ℕ} (hc : m.toFinderConfig.Ok) (h : Windowed m src P A)
    (hl : Limited m A n) (hk : 0 < k) (hkn : k ≤ n)
    (ht : m.numHashBytes ≤ m.lenLimit → 0 < m.pos ∧ ∃ o q, P + 1 = m.pos + o ∧
      Tabled m src o (m.pos + k) (m.cyclicBufferPos + k) (n - k) q) : ∃ m' A',
      (if (m.passed k).pos = m.posLimit then (m.passed k).checkLimits else .ok (m.passed k)) =
        .ok m' ∧ Stands m' src (P + k) A' ∧ A ≤ A' + k ∧
      m'.toFinderConfig = m.toFinderConfig := by
  have hle := hl.pos_le
  have hn := hl.n_le
  have hn32 := hl.n_lt
  have hring := hl.cyclic
  have hlim := hl.lenLimit
  have hpos32 := h.pos_lt
  have hw := passed_windowed h (hkn.trans hn)
  have hpos : (m.passed k).pos = (m.pos + k) % 2 ^ 32 := by
    change wrappingAdd32 m.pos k = _
    rw [wrappingAdd32]
  by_cases hend : k = n
  · subst hend
    rw [if_pos (hpos.trans hl.posLimit.symm)]
    obtain ⟨m', A', hcheck, hstands, hmore, hconfig⟩ := checkLimits_spec (m := m.passed k) hc hw
      hpos hle hring (fun hflow => by
        have := hl.fed hflow
        change m.keepSizeAfter ≤ A - k
        omega) fun hA => by
        change m.numHashBytes ≤ A - k at hA
        have hlen : m.numHashBytes ≤ m.lenLimit := by
          by_contra hshort
          have := hl.short (not_le.mp hshort)
          omega
        obtain ⟨hpos0, o, q, hP, ht⟩ := ht hlen
        have hq : q = 0 := by
          have := ht.queue.within
          omega
        subst hq
        refine ⟨by omega, o, by omega, ht.low, ht.big, ht.links, { ht.queue.restart with }⟩
    exact ⟨m', A', hcheck, hstands, by omega, hconfig⟩
  · have hlt : m.pos + k < 2 ^ 32 := by omega
    rw [Nat.mod_eq_of_lt hlt] at hpos
    rw [if_neg (by
      rw [hpos, hl.posLimit]
      omega)]
    refine ⟨m.passed k, A - k, rfl, ⟨hc, hw, n - k, ?_, fun hlen => ?_⟩, by omega, rfl⟩
    · constructor
      · change m.posLimit = ((m.passed k).pos + (n - k)) % 2 ^ 32
        rw [hpos, hl.posLimit, Nat.add_assoc, Nat.add_sub_cancel' hkn]
      · rw [hpos]
        omega
      · omega
      · omega
      · change m.cyclicBufferPos + k + (n - k) ≤ m.cyclicBufferSize
        omega
      · intro _
        omega
      · change m.lenLimit + (n - k) ≤ A - k + 1
        omega
      · exact hl.lenLimit_le
      · intro hshort
        have := hl.short hshort
        change A - k < m.numHashBytes
        omega
      · intro hflow
        have := hl.fed hflow
        change m.keepSizeAfter + (n - k) ≤ A - k
        omega
    · obtain ⟨hpos0, o, q, hP, ht⟩ := ht hlen
      rw [hpos]
      exact ⟨by omega, o, q, by omega, ht.low, ht.big, ht.links, { ht.queue with }⟩

end
end MatchFinder
end LzmaTurbo.Enc
