import LzmaTurbo.Enc.FinderCalls

/-!
# Runs of a hash-chain finder

`create` leaves a finder whose sizes fit, whatever it was used for before. From there every
order of calls finds matches of the input only.
-/
namespace LzmaTurbo.Enc
open Machine

/-! ## Sizes -/

/-- The settings of a hash-chain finder, before `create`. -/
structure FinderConfig.Chained (c : FinderConfig) : Prop where
  kind : c.kind = .hc4 ∨ c.kind = .hc5
  numHashBytes : c.numHashBytes = c.kind.numHashBytes
  numHashBytesMin : c.numHashBytesMin ≤ 2
  cutValue : 1 ≤ c.cutValue

section
variable {c c' : FinderConfig} {historySize before maxLen after limit : ℕ} {plan : Plan}

theorem FinderConfig.getBlockSize_spec {n : ℕ} (h : c.getBlockSize historySize = .ok n)
    (hn : n ≠ 0) (hb : c.keepSizeBefore < 2 ^ 32) (ha : c.keepSizeAfter < 2 ^ 32) :
    c.keepSizeBefore + c.keepSizeAfter + kBlockMoveAlign ≤ n ∧ n < 2 ^ 32 := by
  have hsum : c.keepSizeBefore ≤ wrappingAdd32 c.keepSizeBefore c.keepSizeAfter →
      wrappingAdd32 c.keepSizeBefore c.keepSizeAfter = c.keepSizeBefore + c.keepSizeAfter := by
    unfold wrappingAdd32
    omega
  have halign : kBlockSizeAlign = 2 ^ 16 := rfl
  have hmax : wrappingSub32 0 kBlockSizeAlign < 2 ^ 32 := Nat.mod_lt _ (by norm_num)
  have hmin : 0 < kBlockSizeReserveMin := by decide
  have hfit : kBlockMoveAlign ≤ kBlockSizeReserveMin := by decide
  unfold getBlockSize at h
  generalize wrappingAdd32 c.keepSizeBefore c.keepSizeAfter = size at h hsum
  generalize wrappingSub32 0 kBlockSizeAlign = top at h hmax
  by_cases hover : c.keepSizeBefore < historySize ∨ size < c.keepSizeBefore
  · rw [if_pos hover] at h
    exact absurd (Except.ok.inj h).symm hn
  rw [if_neg hover] at h
  by_cases hle : size ≤ top
  · simp only [sub_ok hle, ok_bind] at h
    generalize size >>> (if size < 1 <<< 30 then 1 else 2) = half at h
    generalize 1 <<< 12 = page at h
    by_cases hslow : top ≤ size ∨ top - size < kBlockSizeReserveMin
    · rw [if_pos hslow] at h
      exact absurd (Except.ok.inj h).symm hn
    rw [if_neg hslow] at h
    generalize kBlockSizeReserveMin = least at *
    generalize kBlockMoveAlign = move at *
    generalize kBlockSizeAlign = align at *
    by_cases hreserve : top - size ≤ half + page + move + align
    · rw [if_pos hreserve] at h
      cases h
      omega
    · rw [if_neg hreserve] at h
      have hmod := Nat.mod_lt (size + (half + page + move + align)) (show 0 < align by omega)
      cases h
      omega
  · simp only [sub, if_neg hle] at h
    cases h

theorem saturatingAdd64_of_lt {a b n : ℕ} (h : saturatingAdd64 a b < n) (hn : n < 2 ^ 32) :
    saturatingAdd64 a b = a + b := by
  have hcap : 2 ^ 32 ≤ 2 ^ 64 - 1 := by norm_num
  unfold saturatingAdd64 at h ⊢
  generalize 2 ^ 64 - 1 = cap at h hcap ⊢
  omega

theorem FinderConfig.hashMasks_le (historySize : ℕ) (c : FinderConfig) :
    (c.hashMasks historySize).2 ≤ (c.hashMasks historySize).1 := by
  unfold hashMasks
  by_cases hbits : c.numHashOutBits ≠ 0
  · simp only [if_pos hbits]
    split
    · exact Nat.min_le_left _ _
    · exact le_rfl
  · simp only [if_neg hbits]
    split
    · exact Nat.min_le_left _ _
    · exact le_rfl

theorem FinderConfig.plan_spec {src : List UInt8} (hc : c.Chained) (hhist : 1 ≤ historySize)
    (hafter : after + maxLen < 2 ^ 32) (hlen : c.numHashBytes ≤ maxLen)
    (hsrc : src.length ≤ limit)
    (h : c.plan historySize before maxLen after limit = .ok (.ok (c', plan))) :
    FinderConfig.Ok { c' with blockSize := plan.blockSize, sonBase := plan.hashSizeSum } ∧
      FinderConfig.Roomy { c' with blockSize := plan.blockSize, sonBase := plan.hashSizeSum } src ∧
      plan.hashSizeSum + c'.cyclicBufferSize ≤ plan.numRefs ∧ c'.kind = c.kind ∧
      c'.directInput = c.directInput := by
  have hbytes : 4 ≤ c.numHashBytes ∧ c.numHashBytes ≤ 5 := by
    rw [hc.numHashBytes]
    rcases hc.kind with hk | hk <;> rw [hk] <;> decide
  have htree : c.kind.btMode = false := by
    rcases hc.kind with hk | hk <;> rw [hk] <;> rfl
  have hmin := hc.numHashBytesMin
  unfold FinderConfig.plan at h
  by_cases hover : 2 ^ 32 ≤ historySize + before + 1
  · rw [if_pos hover] at h
    cases h
  rw [if_neg hover] at h
  have hkeep : max (u32 (after + maxLen)) c.numHashBytes = after + maxLen := by
    rw [u32, Nat.mod_eq_of_lt hafter]
    omega
  simp only [hkeep] at h
  cases hblock : FinderConfig.getBlockSize historySize { c with
    keepSizeBefore := historySize + before + 1
    keepSizeAfter := after + maxLen } with
  | error e =>
      rw [hblock] at h
      cases h
  | ok n =>
      rw [hblock, ok_bind] at h
      by_cases hn : n = 0
      · rw [if_pos hn] at h
        cases h
      rw [if_neg hn] at h
      obtain ⟨hroom, hsmall⟩ := getBlockSize_spec hblock hn
        (show historySize + before + 1 < 2 ^ 32 by omega) (show after + maxLen < 2 ^ 32 by omega)
      have hfix : ((if 2 < c.numHashBytes ∧ c.numHashBytesMin ≤ 2 then kHash2Size else 0) +
          if 3 < c.numHashBytes ∧ c.numHashBytesMin ≤ 3 then kHash3Size else 0) =
          kFix4HashSize := by
        rw [if_pos ⟨by omega, by omega⟩, if_pos ⟨by omega, by omega⟩]
      simp only [hfix, htree, Bool.false_eq_true, if_false] at h
      have hmask := hashMasks_le historySize { c with
        keepSizeBefore := historySize + before + 1
        keepSizeAfter := after + maxLen }
      generalize FinderConfig.hashMasks historySize { c with
        keepSizeBefore := historySize + before + 1
        keepSizeAfter := after + maxLen } = masks at h hmask
      obtain ⟨hs, mask⟩ := masks
      change mask ≤ hs at hmask
      have hexact : saturatingAdd64 (saturatingAdd64 limit (after + maxLen)) kBlockSizeAlign < n →
          saturatingAdd64 (saturatingAdd64 limit (after + maxLen)) kBlockSizeAlign =
            limit + (after + maxLen) + kBlockSizeAlign := fun hlt => by
        have hsum := saturatingAdd64_of_lt hlt hsmall
        rw [hsum, saturatingAdd64_of_lt (show _ < n by omega) hsmall]
      generalize saturatingAdd64 (saturatingAdd64 limit (after + maxLen)) kBlockSizeAlign = whole
        at h hexact
      have halign : kBlockSizeAlign = 65536 := rfl
      have hmod := Nat.mod_lt whole (show 0 < kBlockSizeAlign by decide)
      cases h
      refine ⟨⟨hc.kind, hc.numHashBytes, rfl, ?_, rfl, hhist, ?_, hlen, ?_, ?_, ?_,
        hc.cutValue⟩, ?_, ?_, rfl, rfl⟩
      · change kFix4HashSize + mask + 1 ≤ hs + 1 + kFix4HashSize
        omega
      · change historySize + 1 < 2 ^ 32
        omega
      · exact Nat.le_add_left _ _
      · change historySize + 1 ≤ historySize + before + 1
        omega
      · change (if whole < n then whole - whole % kBlockSizeAlign else n) < 2 ^ 32
        split <;> omega
      · by_cases hshort : whole < n
        · refine .inr (.inr ?_)
          change src.length + (after + maxLen) <
            if whole < n then whole - whole % kBlockSizeAlign else n
          have hsum := hexact hshort
          rw [if_pos hshort]
          omega
        · refine .inr (.inl ?_)
          change historySize + before + 1 + (after + maxLen) + kBlockMoveAlign ≤
            if whole < n then whole - whole % kBlockSizeAlign else n
          rwa [if_neg hshort]
      · simp only [numRefsAlignMask]
        omega

end

/-! ## Starting -/

/-- A finder that `create` has prepared. Its tables may hold anything. -/
structure Created (m : MatchFinder) (src : List UInt8) : Prop where
  config : m.toFinderConfig.Ok
  roomy : m.Roomy src
  tables : m.sonBase + m.cyclicBufferSize ≤ m.hash.size
  heads : 0 < m.heads.size
  block : m.directInput = false → m.blockSize ≤ m.bufBase.length

/-- What the finder is given is the input: a window of it, or a stream. -/
def Fed (m : MatchFinder) (src : List UInt8) : Prop :=
  if m.directInput then m.bufBase = src ∧ src.length ≤ 1 <<< 30 else m.stream.data = src

section
variable {m m' : MatchFinder} {src : List UInt8} {historySize before maxLen after limit : ℕ}

theorem create_spec (hc : m.toFinderConfig.Chained)
    (hhash : m.hash.size ≠ 0 → m.hash.size = m.numRefs) (hhist : 1 ≤ historySize)
    (hafter : after + maxLen < 2 ^ 32) (hlen : m.numHashBytes ≤ maxLen)
    (hsrc : src.length ≤ limit)
    (h : m.create historySize before maxLen after limit = .ok (.ok m')) : Created m' src := by
  unfold MatchFinder.create at h
  cases hplan : m.plan historySize before maxLen after limit with
  | error e =>
      rw [hplan] at h
      cases h
  | ok r =>
      cases r with
      | error e =>
          rw [hplan] at h
          cases h
      | ok p =>
          obtain ⟨c, plan⟩ := p
          obtain ⟨hok, hroomy, hrefs, hkind, hdirect⟩ :=
            FinderConfig.plan_spec hc hhist hafter hlen hsrc hplan
          have htree : c.kind.btMode = false := by
            rw [hkind]
            rcases hc.kind with hk | hk <;> rw [hk] <;> rfl
          rw [hplan, ok_bind] at h
          simp only [htree, Bool.false_eq_true, if_false] at h
          cases h
          refine ⟨hok, hroomy, ?_, ?_, fun hd => ?_⟩
          · change plan.hashSizeSum + c.cyclicBufferSize ≤ Array.size (if _ then _ else _)
            by_cases hkeep : m.hash.size ≠ 0 ∧ plan.numRefs ≤ m.numRefs
            · rw [decide_eq_true hkeep, if_pos rfl, hhash hkeep.1]
              exact hrefs.trans hkeep.2
            · rw [decide_eq_false hkeep, if_neg Bool.false_ne_true, Array.size_replicate]
              exact hrefs
          · change 0 < Array.size (if _ then _ else _)
            by_cases hnone : m.heads.size = 0
            · rw [if_pos hnone, Array.size_replicate]
              decide
            · rw [if_neg hnone]
              exact Nat.pos_of_ne_zero hnone
          · change plan.blockSize ≤ List.length (if _ then _ else _)
            change c.directInput = false at hd
            by_cases hrenew : m.directInput = false ∧ m.bufBase.length < plan.blockSize
            · rw [decide_eq_true hrenew, if_pos rfl, List.length_replicate]
            · rw [decide_eq_false hrenew, if_neg Bool.false_ne_true]
              exact not_lt.mp fun hlt => hrenew ⟨hdirect.symm.trans hd, hlt⟩

/-- Cleared tables hold no position; the links of no position count. -/
theorem initHash_spec (h : Created m src) (o : ℕ) : ∃ hash, m.initHash = .ok { m with hash } ∧
    LowTables src o 1 hash ∧ BigTable m.toFinderConfig 1 hash ∧ hash.size = m.hash.size := by
  have hson := h.config.sonBase
  have htables := h.tables
  have hfix := h.config.fixedHashSize
  have hsize : m.fixedHashSize + (m.hashMask + 1) ≤ m.hash.size := by omega
  simp only [kFix4HashSize] at hfix
  have hzero : ∀ i < m.fixedHashSize + (m.hashMask + 1), (m.hash.mapIdx fun i v =>
      if i < m.fixedHashSize + (m.hashMask + 1) then kEmptyHashValue else v)[i]? = some 0 := by
    intro i hi
    rw [Array.getElem?_mapIdx, Array.getElem?_eq_getElem (by omega), Option.map_some, if_pos hi]
  refine ⟨_, ?_, ⟨fun i hi => ⟨0, hzero i (by omega), .inl rfl⟩, fun i hi => ⟨0, hzero _ ?_,
    .inl rfl⟩⟩, fun i hi => ⟨0, hzero _ (by omega), Nat.one_pos⟩, Array.size_mapIdx⟩
  · rw [MatchFinder.initHash, if_neg (not_lt.mpr hsize)]
  · simp only [kFix3HashSize]
    omega

/-- Nothing is entered yet at the first position. -/
theorem first_tabled (hlow : LowTables src 0 1 m.hash)
    (hbig : BigTable m.toFinderConfig 1 m.hash)
    (htables : m.sonBase + m.cyclicBufferSize ≤ m.hash.size) (hheads : 0 < m.heads.size)
    (hat : m.headsAt = 0) (hend : m.headsEnd = 0) : Tabled m src 0 1 1 0 0 :=
  ⟨hlow, hbig, ⟨htables, fun d h1 h2 _ => by omega⟩, ⟨by omega, by omega, hheads, le_rfl,
    fun _ => rfl, fun j hj => by omega⟩⟩

/-- The window as far as it is filled before the first call. -/
theorem firstBlock_spec (h : Created m src) (hfed : Fed m src) : ∃ m' A,
    m.init4.firstBlock = .ok m' ∧ Windowed m' src 0 A ∧
      (m'.Flowing → m'.keepSizeAfter < A) ∧ m'.toFinderConfig = m.toFinderConfig ∧ m'.pos = 1 ∧
      m'.hash = m.hash ∧ m'.heads = m.heads ∧ m'.headsAt = m.headsAt ∧
      m'.headsEnd = m.headsEnd := by
  have hroomy := h.roomy
  unfold Fed at hfed
  unfold MatchFinder.firstBlock
  change ∃ m' A, (if m.directInput then _ else _) = _ ∧ _
  by_cases hdirect : m.directInput = true
  · rw [if_pos hdirect] at hfed ⊢
    obtain ⟨hsrc, hlen⟩ := hfed
    have hshort : src.length < 2 ^ 32 - 1 := hlen.trans_lt (by decide)
    have hno : m.directInput = false → False := fun hd => by
      rw [hd] at hdirect
      cases hdirect
    refine ⟨{ m.init4 with
      streamPos := m.init4.streamPos + m.bufBase.length
      streamEndWasReached := true }, src.length, if_pos (hsrc ▸ hlen), ?_, fun hf => ?_, rfl, rfl,
      rfl, rfl, rfl, rfl⟩
    · refine ⟨?_, ?_, ?_, ?_, le_rfl, .inl rfl, fun hd => (hno hd).elim,
        fun hd => (hno hd).elim, fun hd => (hno hd).elim, ?_, fun _ => rfl, h.roomy⟩
      · change wrappingSub32 (1 + m.bufBase.length) 1 = src.length
        rw [hsrc, wrappingSub32]
        omega
      · change 1 < 2 ^ 32
        norm_num
      · omega
      · intro i _
        change m.bufBase[i]? = src[i]?
        rw [hsrc]
      · intro _
        exact Nat.zero_add _
    · cases hf.1
  · rw [if_neg hdirect] at hfed ⊢
    have hdirect : m.directInput = false := by simpa using hdirect
    have hw : Windowed m.init4 src 0 0 := by
      refine ⟨show wrappingSub32 1 1 = 0 by norm_num [wrappingSub32],
        show 1 < 2 ^ 32 by norm_num, Nat.zero_le _, fun i hi => ?_, le_rfl, .inl rfl,
        h.block, fun _ => Nat.zero_le _, fun _ => hfed, fun he => (by cases he), fun hd => ?_,
        h.roomy⟩
      · exact absurd hi (Nat.not_lt_zero i)
      · rw [show m.directInput = true from hd] at hdirect
        cases hdirect
    obtain ⟨w, A, hread, hw', -, hf, -⟩ := MatchFinder.readBlock_spec hw
      (fun _ => Nat.zero_le _) (fun _ => by
        change 0 + m.keepSizeAfter < m.blockSize
        have halign : 0 < kBlockMoveAlign := by decide
        rcases hroomy with hd | hroom | hshort
        · rw [hd] at hdirect
          cases hdirect
        · omega
        · omega) h.config.blockSize
    exact ⟨_, A, hread, hw', hf, rfl, rfl, rfl, rfl, rfl, rfl⟩

/-- Whatever the finder did before, it stands at the first byte. -/
theorem init_spec (h : Created m src) (hfed : Fed m src) : ∃ m' A, m.init = .ok m' ∧
    Stands m' src 0 A ∧ m'.toFinderConfig = m.toFinderConfig := by
  obtain ⟨hash, hclear, hlow, hbig, hsize⟩ := @initHash_spec { m with headsAt := 0, headsEnd := 0 }
    src ⟨h.config, h.roomy, h.tables, h.heads, h.block⟩ 0
  obtain ⟨m2, A, hread, hw, hf, hc2, hpos2, hhash2, hheads2, hat2, hend2⟩ :=
    @firstBlock_spec { m with headsAt := 0, headsEnd := 0, hash } src
      ⟨h.config, h.roomy, hsize ▸ h.tables, h.heads, h.block⟩ hfed
  have hcyc := h.config.cyclicBufferSize
  have hhist := h.config.historySize_pos
  obtain ⟨m', hset, hstands, hconfig⟩ := @MatchFinder.limits_stands
    { m2 with cyclicBufferPos := m2.pos } src 0 A (hc2 ▸ h.config)
    ⟨hw.avail, hw.pos_lt, hw.inside, hw.window, hw.buffer_le, hw.history, hw.block, hw.fits,
      hw.rest, hw.ended, hw.direct, hw.roomy⟩ (by
      change m2.pos < m2.cyclicBufferSize
      rw [hpos2, hc2, hcyc]
      omega) hf fun _ => by
      refine ⟨by
        change 0 < m2.pos
        omega, 0, by
        change 0 + 1 = m2.pos + 0
        omega, ?_⟩
      show Tabled { m2 with cyclicBufferPos := m2.pos } src 0 m2.pos m2.pos 0 0
      rw [hpos2]
      exact first_tabled (hhash2 ▸ hlow) (by rwa [hhash2, hc2]) (by
        rw [hc2, hhash2, hsize]
        exact h.tables) (hheads2 ▸ h.heads) hat2 hend2
  refine ⟨m', A, ?_, hstands, hconfig.trans hc2⟩
  unfold MatchFinder.init
  simp only [hclear, ok_bind, hread]
  exact hset

end

/-! ## Calls in any order -/

inductive FinderCall where
  | getMatches
  | skip (num : ℕ)
deriving Repr

def FinderCall.width : FinderCall → ℕ
  | .getMatches => 1
  | .skip num => num

/-- The stream, or the whole input as the window. -/
def MatchFinder.given (m : MatchFinder) (stream : SeqInStream) : MatchFinder :=
  { m with
    stream
    bufBase := if m.directInput then stream.data else m.bufBase }

/-- Calls as long as their bytes are there, from the `P`-th on; what is found, and where. -/
def MatchFinder.run :
    List FinderCall → ℕ → MatchFinder →
      Except Fault (List (ℕ × List (ℕ × ℕ)) × ℕ × MatchFinder)
  | [], P, m => .ok ([], P, m)
  | c :: cs, P, m =>
      if m.getNumAvailableBytes < c.width then .ok ([], P, m)
      else
        match c with
        | .getMatches => do
            let (found, m) ← m.hcGetMatches
            let (rest, P', m) ← run cs (P + 1) m
            .ok ((P, found) :: rest, P', m)
        | .skip num => do
            let m ← m.skip num
            run cs (P + num) m

section
variable {m : MatchFinder} {src : List UInt8} {P A : ℕ}

theorem hcGetMatches_spec (h : Stands m src P A) (hA : 0 < A) :
    ∃ found m' A', m.hcGetMatches = .ok (found, m') ∧
      Found src m.historySize P m.lenLimit found ∧ Stands m' src (P + 1) A' ∧ A ≤ A' + 1 ∧
      m'.toFinderConfig = m.toFinderConfig := by
  unfold MatchFinder.hcGetMatches
  rcases h.config.kind with hkind | hkind
  · rw [if_neg (by rw [hkind]; decide)]
    exact hc4GetMatches_spec h hkind hA
  · rw [if_pos hkind]
    exact hc5GetMatches_spec h hkind hA

theorem skip_spec {num : ℕ} (h : Stands m src P A) (hnum : num ≤ A) :
    ∃ m' A', m.skip num = .ok m' ∧ Stands m' src (P + num) A' ∧ A ≤ A' + num ∧
      m'.toFinderConfig = m.toFinderConfig := by
  have hbytes : (if m.kind = .hc5 then 5 else 4) = m.numHashBytes := by
    rw [h.config.numHashBytes]
    rcases h.config.kind with hkind | hkind <;> rw [hkind] <;> rfl
  unfold MatchFinder.skip
  rw [hbytes]
  exact hcSkip_spec h hnum le_rfl

/-- Without an error the finder sees as far as it promises, or to the end. -/
theorem Stands.ahead (h : Stands m src P A) (hok : m.result = .ok ()) :
    min (P + m.keepSizeAfter) src.length ≤ P + A := by
  obtain ⟨n, hl, -⟩ := h.limited
  by_cases hend : m.streamEndWasReached = true
  · have := h.windowed.ended hend
    omega
  · have := hl.fed ⟨by simpa using hend, hok⟩
    omega

/-- One search or skip after another keeps to the input. -/
theorem run_spec (h : Stands m src P A) (calls : List FinderCall) : ∃ found P' m' A',
    m.run calls P = .ok (found, P', m') ∧
      (∀ a ∈ found, Found src m.historySize a.1 m.matchMaxLen a.2) ∧ Stands m' src P' A' ∧
      m'.toFinderConfig = m.toFinderConfig := by
  induction calls generalizing m P A with
  | nil => exact ⟨[], P, m, A, rfl, fun _ ha => absurd ha List.not_mem_nil, h, rfl⟩
  | cons c cs ih =>
      unfold MatchFinder.run
      rw [h.windowed.avail]
      by_cases hfew : A < c.width
      · rw [if_pos hfew]
        exact ⟨[], P, m, A, rfl, fun _ ha => absurd ha List.not_mem_nil, h, rfl⟩
      rw [if_neg hfew]
      cases c with
      | getMatches =>
          obtain ⟨found, m₁, A₁, hcall, hfound, h₁, -, hconfig₁⟩ :=
            hcGetMatches_spec h (not_lt.mp hfew)
          obtain ⟨rest, P', m', A', hrun, hrest, h', hconfig'⟩ := ih h₁
          rw [hconfig₁] at hrest
          have hle : m.lenLimit ≤ m.matchMaxLen := by
            obtain ⟨n, hl, -⟩ := h.limited
            exact hl.lenLimit_le
          simp only [hcall, ok_bind, hrun]
          refine ⟨_, P', m', A', rfl, fun a ha => ?_, h', hconfig'.trans hconfig₁⟩
          rcases List.mem_cons.mp ha with rfl | ha
          · exact hfound.mono hle
          · exact hrest a ha
      | skip num =>
          change ¬ A < num at hfew
          obtain ⟨m₁, A₁, hcall, h₁, -, hconfig₁⟩ := skip_spec h (not_lt.mp hfew)
          obtain ⟨rest, P', m', A', hrun, hrest, h', hconfig'⟩ := ih h₁
          rw [hconfig₁] at hrest
          simp only [hcall, ok_bind]
          exact ⟨rest, P', m', A', hrun, hrest, h', hconfig'.trans hconfig₁⟩

/-- Whatever a finder did before, `create` and `init` make it ready for an input. Then all calls
are answered, in any order, from whatever pieces the stream gives: each pair that a search hands
out is a repetition of the input within the dictionary, longer than those before it. The window
shows the input, as far ahead as is promised unless the stream fails. -/
theorem MatchFinder.run_finds {m₁ : MatchFinder} {historySize before maxLen after limit : ℕ}
    (hc : m.toFinderConfig.Chained) (hhash : m.hash.size ≠ 0 → m.hash.size = m.numRefs)
    (hhist : 1 ≤ historySize) (hafter : after + maxLen < 2 ^ 32) (hlen : m.numHashBytes ≤ maxLen)
    (h : m.create historySize before maxLen after limit = .ok (.ok m₁)) (stream : SeqInStream)
    (hlimit : stream.data.length ≤ limit)
    (hdirect : m₁.directInput = true → stream.data.length ≤ 1 <<< 30) :
    ∃ m₂, (m₁.given stream).init = .ok m₂ ∧ ∀ calls, ∃ found P m', m₂.run calls 0 =
        .ok (found, P, m') ∧
      (∀ a ∈ found, Found stream.data m₁.historySize a.1 m₁.matchMaxLen a.2) ∧
      (∀ i < m'.getNumAvailableBytes, m'.bufBase[m'.buffer + i]? = stream.data[P + i]?) ∧
      (m'.result = .ok () →
        min (P + m₁.keepSizeAfter) stream.data.length ≤ P + m'.getNumAvailableBytes) := by
  have hcreated := create_spec hc hhash hhist hafter hlen hlimit h
  have hgiven : Created (m₁.given stream) stream.data := by
    refine ⟨hcreated.config, hcreated.roomy, hcreated.tables, hcreated.heads, fun hd => ?_⟩
    change m₁.blockSize ≤ List.length (if m₁.directInput then _ else _)
    rw [if_neg (by rw [show m₁.directInput = false from hd]; exact Bool.false_ne_true)]
    exact hcreated.block hd
  have hfed : Fed (m₁.given stream) stream.data := by
    unfold Fed
    change if m₁.directInput then (if m₁.directInput then _ else _) = _ ∧ _ else _
    by_cases hd : m₁.directInput = true
    · rw [if_pos hd, if_pos hd]
      exact ⟨rfl, hdirect hd⟩
    · rw [if_neg hd]
      rfl
  obtain ⟨m₂, A, hinit, hstands, hconfig⟩ := init_spec hgiven hfed
  refine ⟨m₂, hinit, fun calls => ?_⟩
  obtain ⟨found, P, m', A', hrun, hfound, h', hconfig'⟩ := run_spec hstands calls
  have hsame : m'.toFinderConfig = m₁.toFinderConfig := hconfig'.trans hconfig
  rw [hconfig] at hfound
  refine ⟨found, P, m', hrun, hfound, fun i hi => ?_, fun hok => ?_⟩
  · rw [h'.windowed.avail] at hi
    have hle := h'.windowed.buffer_le
    rw [h'.windowed.window _ (by omega)]
    congr 1
    omega
  · have hahead := h'.ahead hok
    rw [h'.windowed.avail]
    rwa [hsame] at hahead

end

/-- A new finder with the settings of a fast encoder. -/
def chainFinder : MatchFinder := { MatchFinder.new with kind := .hc4 }

def MatchFinder.creates (historySize before maxLen after limit : ℕ) (m : MatchFinder) : Bool :=
  match m.create historySize before maxLen after limit with
  | .ok (.ok _) => true
  | _ => false

theorem MatchFinder.creates_spec {m : MatchFinder} {historySize before maxLen after limit : ℕ}
    (h : m.creates historySize before maxLen after limit = true) :
    ∃ m₁, m.create historySize before maxLen after limit = .ok (.ok m₁) := by
  unfold creates at h
  split at h
  · exact ⟨_, ‹_›⟩
  · cases h

/-- A stream that gives a byte at a time, and none after the seventh. -/
theorem MatchFinder.run_finds_seven : ∃ m₁, chainFinder.create 4096 2048 32 274 10 = .ok (.ok m₁) ∧
    ∃ m₂, (m₁.given ⟨[1, 2, 3, 1, 2, 3, 1, 2, 3, 1], 0, fun _ => 0,
        fun n => n == 7⟩).init = .ok m₂ ∧
      ∀ calls, ∃ found P m', m₂.run calls 0 = .ok (found, P, m') ∧
        (∀ a ∈ found, Found [1, 2, 3, 1, 2, 3, 1, 2, 3, 1] m₁.historySize a.1 m₁.matchMaxLen a.2) ∧
        (∀ i < m'.getNumAvailableBytes,
          m'.bufBase[m'.buffer + i]? = [1, 2, 3, 1, 2, 3, 1, 2, 3, 1][P + i]?) ∧
        (m'.result = .ok () →
          min (P + m₁.keepSizeAfter) 10 ≤ P + m'.getNumAvailableBytes) := by
  obtain ⟨m₁, h⟩ := creates_spec (show chainFinder.creates 4096 2048 32 274 10 = true by
    decide +kernel)
  exact ⟨m₁, h, run_finds ⟨.inl rfl, rfl, le_rfl, by decide⟩ (fun hne => absurd rfl hne)
    (by norm_num) (by norm_num) (by decide) h _ (by decide) (fun _ => by decide)⟩

end LzmaTurbo.Enc
