import LzmaTurbo.Enc.FinderLimits

/-!
# The calls of a hash-chain finder

Each call enters its positions in the tables and reads ahead. The matches it hands out are real.
-/
namespace LzmaTurbo.Enc
open Machine

/-- A position whose low hashes are entered, and nothing else of it. -/
structure Looking (m : MatchFinder) (src : List UInt8) (P A n o q : ℕ) : Prop where
  config : m.toFinderConfig.Ok
  windowed : Windowed m src P A
  limited : Limited m A n
  long : m.numHashBytes ≤ m.lenLimit
  n_pos : 0 < n
  pos_pos : 0 < m.pos
  place : P + 1 = m.pos + o
  low : LowTables src o (m.pos + 1) m.hash
  big : BigTable m.toFinderConfig (m.pos + q) m.hash
  links : Links m.toFinderConfig m.pos m.cyclicBufferPos m.hash
  queue : Queue m m.pos n q

/-- Its head is taken, and has to be linked. -/
structure Headed (m : MatchFinder) (src : List UInt8) (P A n o q : ℕ) : Prop where
  config : m.toFinderConfig.Ok
  windowed : Windowed m src P A
  limited : Limited m A n
  n_pos : 0 < n
  pos_pos : 0 < m.pos
  place : P + 1 = m.pos + o
  low : LowTables src o (m.pos + 1) m.hash
  big : BigTable m.toFinderConfig (m.pos + 1 + q) m.hash
  links : Links m.toFinderConfig m.pos m.cyclicBufferPos m.hash
  queue : Queue m (m.pos + 1) (n - 1) q

section
variable {m : MatchFinder} {src : List UInt8} {P A n o q : ℕ}

theorem Windowed.tables (h : Windowed m src P A) (hash heads : Array ℕ) (headsAt headsEnd : ℕ) :
    Windowed { m with hash, heads, headsAt, headsEnd } src P A :=
  ⟨h.avail, h.pos_lt, h.inside, h.window, h.buffer_le, h.history, h.block, h.fits, h.rest, h.ended,
    h.direct, h.roomy⟩

theorem Limited.tables (h : Limited m A n) (hash heads : Array ℕ) (headsAt headsEnd : ℕ) :
    Limited { m with hash, heads, headsAt, headsEnd } A n :=
  ⟨h.posLimit, h.pos_le, h.n_lt, h.n_le, h.cyclic, h.n_pos, h.lenLimit, h.lenLimit_le, h.short,
    h.fed⟩

theorem Looking.takeHead {hv : ℕ} (h : Looking m src P A n o q) (hv' : hv ≤ m.hashMask)
    (prefetch : Bool) : ∃ head m' q',
      m.takeHead m.pos m.buffer kFix4HashSize hv prefetch = .ok (head, m') ∧ head < m.pos ∧
      Headed m' src P A n o q' ∧ m'.pos = m.pos ∧ m'.buffer = m.buffer ∧
      m'.lenLimit = m.lenLimit ∧ m'.cyclicBufferPos = m.cyclicBufferPos ∧
      m'.toFinderConfig = m.toFinderConfig := by
  obtain ⟨head, hash, heads, headsAt, headsEnd, q', htake, hlt, hout, hbig, hqueue⟩ :=
    MatchFinder.takeHead_spec h.config h.windowed h.limited h.long h.n_pos h.queue h.big hv'
      prefetch
  rw [h.config.fixedHashSize] at htake
  exact ⟨head, _, q', htake, hlt, ⟨h.config, h.windowed.tables hash heads headsAt headsEnd,
    h.limited.tables hash heads headsAt headsEnd, h.n_pos, h.pos_pos, h.place,
    hout.low h.config h.low, hbig, hout.links h.config h.links, hqueue⟩, rfl, rfl, rfl, rfl, rfl⟩

/-- The links of older positions are as before. -/
theorem Links.keep {c : FinderConfig} {pos cyc : ℕ} {hash : Array ℕ} (h : Links c pos cyc hash)
    (v : ℕ) : Links c pos cyc (hash.setIfInBounds (c.sonBase + cyc) v) where
  size := by
    rw [Array.size_setIfInBounds]
    exact h.size
  back d h1 h2 h3 := by
    have hne : sonIndex c cyc d ≠ c.sonBase + cyc := by
      unfold sonIndex
      split <;> omega
    rw [get?_put_ne hne]
    exact h.back d h1 h2 h3

theorem Headed.ring (h : Headed m src P A n o q) : m.cyclicBufferPos < m.cyclicBufferSize := by
  have hring := h.limited.cyclic
  have hn := h.n_pos
  omega

/-- With its link set. -/
def MatchFinder.linked (m : MatchFinder) (head : ℕ) : MatchFinder :=
  { m with hash := m.hash.setIfInBounds (m.sonBase + m.cyclicBufferPos) head }

theorem Headed.setSon (h : Headed m src P A n o q) (head : ℕ) :
    m.setSon m.cyclicBufferPos head = .ok (m.linked head) := by
  have hring := h.ring
  have hsize := h.links.size
  rw [MatchFinder.setSon, put_ok (by omega), ok_bind]
  rfl

/-- The finder moves on. -/
theorem Headed.movePos {head : ℕ} (h : Headed m src P A n o q) (hhead : head < m.pos) :
    ∃ m' A', (m.linked head).movePos = .ok m' ∧ Stands m' src (P + 1) A' ∧ A ≤ A' + 1 ∧
      m'.toFinderConfig = m.toFinderConfig := by
  have hson := h.config.sonBase
  have hfix := h.config.fixedHashSize
  exact MatchFinder.passed_spec (m := m.linked head) (k := 1) h.config
    (h.windowed.tables _ m.heads m.headsAt m.headsEnd)
    (h.limited.tables _ m.heads m.headsAt m.headsEnd) Nat.one_pos h.n_pos fun _ =>
    ⟨h.pos_pos, o, q, h.place, h.low.put_above (by omega) head,
      h.big.put_outside (.inr (by omega)) head, h.links.put h.ring hhead, { h.queue with }⟩

theorem Headed.walk {head maxLen len : ℕ} {found : List (ℕ × ℕ)} (h : Headed m src P A n o q)
    (hhead : head < m.pos) (h2 : 2 ≤ maxLen) (hmax : maxLen < len) (hlen : len ≤ A)
    (hfound : Found src m.historySize P maxLen found) : ∃ more,
      m.hcGetMatchesSpec len head m.buffer maxLen = .ok (more, m.linked head) ∧
      Found src m.historySize P len (found ++ more) := by
  obtain ⟨more, hwalk, hmore⟩ := MatchFinder.hcWalk_spec (m := m.linked head) h.config
    (h.windowed.tables _ m.heads m.headsAt m.headsEnd) h.place (h.links.keep head)
    h.config.cutValue hhead h2 hmax hlen (show Found src m.historySize P maxLen (found ++ []) by
      rwa [List.append_nil])
  change (m.linked head).hcWalk m.buffer (m.buffer + len) (m.linked head).cutValue _ _ _ = _
    at hwalk
  refine ⟨more, ?_, hmore⟩
  rw [MatchFinder.hcGetMatchesSpec, h.setSon, ok_bind, hwalk, ok_bind]

/-! ## Finding -/

theorem Looking.hcFull {hv : ℕ} (h : Looking m src P A n o q) (hv' : hv ≤ m.hashMask)
    (found : List (ℕ × ℕ)) : ∃ m' A',
      m.hcFull m.pos m.buffer kFix4HashSize hv found = .ok (found, m') ∧
      Stands m' src (P + 1) A' ∧ A ≤ A' + 1 ∧ m'.toFinderConfig = m.toFinderConfig := by
  obtain ⟨head, m1, q', htake, hhead, hheaded, hpos, -, -, hcyc, hconfig⟩ := h.takeHead hv' false
  obtain ⟨m', A', hmove, hstands, hle, hconfig'⟩ := hheaded.movePos (hpos ▸ hhead)
  refine ⟨m', A', ?_, hstands, hle, hconfig'.trans hconfig⟩
  rw [MatchFinder.hcFull, htake, ok_bind]
  simp only [hheaded.setSon, ok_bind, hmove]

theorem Looking.hcRest {hv maxLen : ℕ} {found : List (ℕ × ℕ)} (h : Looking m src P A n o q)
    (hv' : hv ≤ m.hashMask) (h2 : 2 ≤ maxLen) (hmax : maxLen < m.lenLimit)
    (hfound : Found src m.historySize P maxLen found) : ∃ found' m' A',
      m.hcRest m.pos m.buffer kFix4HashSize hv m.lenLimit maxLen found = .ok (found', m') ∧
      Found src m.historySize P m.lenLimit found' ∧ Stands m' src (P + 1) A' ∧ A ≤ A' + 1 ∧
      m'.toFinderConfig = m.toFinderConfig := by
  obtain ⟨head, m1, q', htake, hhead, hheaded, hpos, hbuffer, hlen, hcyc, hconfig⟩ :=
    h.takeHead hv' true
  have hlim := h.limited.lenLimit
  have hn := h.n_pos
  rw [← hconfig] at hfound
  rw [← hlen] at hmax hlim
  obtain ⟨more, hwalk, hmore⟩ := hheaded.walk (hpos ▸ hhead) h2 hmax (by omega) hfound
  obtain ⟨m', A', hmove, hstands, hle, hconfig'⟩ := hheaded.movePos (hpos ▸ hhead)
  rw [hconfig] at hmore
  refine ⟨found ++ more, m', A', ?_, hlen ▸ hmore, hstands, hle, hconfig'.trans hconfig⟩
  rw [MatchFinder.hcRest, htake, ok_bind]
  rw [hbuffer, hlen] at hwalk
  simp only [hwalk, ok_bind, hmove]

/-- A pair of the low tables ends the search, or the chain goes on from it. -/
theorem Looking.longest {hv r : ℕ} {found : List (ℕ × ℕ)} (h : Looking m src P A n o q)
    (hv' : hv ≤ m.hashMask) (h2 : 2 ≤ r) (hle : r ≤ m.lenLimit)
    (hfound : Found src m.historySize P r found) : ∃ found' m' A',
      (if r = m.lenLimit then m.hcFull m.pos m.buffer kFix4HashSize hv found
        else m.hcRest m.pos m.buffer kFix4HashSize hv m.lenLimit r found) = .ok (found', m') ∧
      Found src m.historySize P m.lenLimit found' ∧ Stands m' src (P + 1) A' ∧ A ≤ A' + 1 ∧
      m'.toFinderConfig = m.toFinderConfig := by
  by_cases hfull : r = m.lenLimit
  · obtain ⟨m', A', hcall, hstands, hle, hsame⟩ := h.hcFull hv' found
    rw [if_pos hfull]
    exact ⟨_, m', A', hcall, hfull ▸ hfound, hstands, hle, hsame⟩
  · rw [if_neg hfull]
    exact h.hcRest hv' h2 (by omega) hfound

/-- The first steps of every search. -/
theorem Stands.looks (five : Bool) (h : Stands m src P A) (hlen : m.numHashBytes ≤ m.lenLimit)
    (hbytes : m.numHashBytes = 4 + five.toNat) : ∃ win h2 h3 hv d2 d3 m' n o q found back,
      slice m.bufBase m.buffer (m.buffer + m.numHashBytes) = .ok win ∧
      hashCalc five m.hashMask win = .ok (h2, h3, hv) ∧ hv ≤ m.hashMask ∧
      m.enterLow h2 h3 = .ok (d2, d3, m') ∧ Looking m' src P A n o q ∧
      m'.pos = m.pos ∧ m'.buffer = m.buffer ∧ m'.lenLimit = m.lenLimit ∧
      m'.toFinderConfig = m.toFinderConfig ∧ m'.lowPairs m'.buffer d2 d3 = .ok (found, back) ∧
      Found src m.historySize P 2 found ∧ ∀ d, back = some d →
        1 ≤ d ∧ d ≤ P ∧ d ≤ m.historySize ∧ d ≤ m.buffer ∧ Agrees src P d 3 := by
  obtain ⟨n, hl, ht⟩ := h.limited
  obtain ⟨hpos, o, q, hP, ht⟩ := ht hlen
  have hw := h.windowed
  have hlim := hl.lenLimit
  have hn := hl.n_pos
  have hlong := hw.length_le
  have hin := hw.inside
  have hle := hw.buffer_le
  have hwidth : ((m.bufBase.drop m.buffer).take m.numHashBytes).length = m.numHashBytes := by
    rw [List.length_take, List.length_drop]
    omega
  have hsame : ∀ i < ((m.bufBase.drop m.buffer).take m.numHashBytes).length,
      ((m.bufBase.drop m.buffer).take m.numHashBytes)[i]? = src[P + i]? := by
    intro i hi
    rw [List.getElem?_take_of_lt (by omega), List.getElem?_drop, hw.window _ (by omega)]
    congr 1
    omega
  obtain ⟨h2, h3, hv, hcalc, hlt2, hlt3, hmask, htwo, hthree⟩ :=
    @hashCalc_spec src _ five m.hashMask P (by omega) hsame
  obtain ⟨d2, d3, henter, hd2, hd3⟩ := MatchFinder.enterLow_spec ht.low hP hlt2 hlt3
  have hw' := hw.tables (lowEntered m.hash h2 h3 m.pos) m.heads m.headsAt m.headsEnd
  obtain ⟨found, back, hpairs, hfound, hback⟩ :=
    @MatchFinder.lowPairs_spec { m with hash := lowEntered m.hash h2 h3 m.pos } src P A o d2 d3 h2
      h3 h.config hw' hP (by omega) htwo hthree hd2 hd3
  refine ⟨_, h2, h3, hv, d2, d3, _, n, o, q, found, back, ?_, hcalc, hmask, henter, ?_, rfl, rfl,
    rfl, rfl, hpairs, hfound, hback⟩
  · rw [slice_ok (by omega) (by omega), Nat.add_sub_cancel_left]
  · exact ⟨h.config, hw', hl.tables _ m.heads m.headsAt m.headsEnd, hlen, by omega, hpos, hP,
      ht.low.enter hpos hP hlt2 hlt3 htwo hthree,
      ht.big.lowEntered h.config.fixedHashSize hlt2 hlt3 m.pos,
      ht.links.lowEntered h.config hlt2 hlt3 m.pos, { ht.queue with }⟩

/-- Too few bytes are left for a hash. -/
theorem Stands.movePos (h : Stands m src P A) (hA : 0 < A) (hlen : m.lenLimit < m.numHashBytes) :
    ∃ m' A', m.movePos = .ok m' ∧ Stands m' src (P + 1) A' ∧ A ≤ A' + 1 ∧
      m'.toFinderConfig = m.toFinderConfig := by
  obtain ⟨n, hl, -⟩ := h.limited
  exact MatchFinder.passed_spec (k := 1) h.config h.windowed hl Nat.one_pos (hl.n_pos hA)
    fun hge => absurd hlen (not_lt.mpr hge)

theorem hc4GetMatches_spec (h : Stands m src P A) (hkind : m.kind = .hc4) (hA : 0 < A) :
    ∃ found m' A', m.hc4GetMatches = .ok (found, m') ∧
      Found src m.historySize P m.lenLimit found ∧ Stands m' src (P + 1) A' ∧ A ≤ A' + 1 ∧
      m'.toFinderConfig = m.toFinderConfig := by
  have hbytes : m.numHashBytes = 4 := by
    rw [h.config.numHashBytes, hkind]
    rfl
  unfold MatchFinder.hc4GetMatches
  by_cases hlen : m.lenLimit < 4
  · obtain ⟨m', A', hmove, hstands, hle, hconfig⟩ := h.movePos hA (by omega)
    simp only [if_pos hlen, hmove, ok_bind]
    exact ⟨[], m', A', rfl, .nil _ _ _ _, hstands, hle, hconfig⟩
  obtain ⟨win, h2, h3, hv, d2, d3, m1, n, o, q, found, back, hslice, hcalc, hmask, henter, hlook,
    hpos, hbuffer, hlimit, hconfig, hpairs, hfound, hback⟩ :=
    h.looks false (by omega) hbytes
  rw [hbytes] at hslice
  rw [hbuffer] at hpairs
  rw [← hconfig] at hmask
  simp only [if_neg hlen, hslice, hcalc, henter, hpairs, ok_bind]
  rw [← hconfig] at hfound hback ⊢
  rw [← hlimit] at hlen ⊢
  rw [← hpos, ← hbuffer]
  cases back with
  | none => exact hlook.hcRest hmask (by norm_num) (by omega) (hfound.mono (by norm_num))
  | some d =>
      obtain ⟨hone, hdP, hdist, hreach, hagree⟩ := hback d rfl
      rw [← hbuffer] at hreach
      have hlim := hlook.limited.lenLimit
      have hn := hlook.n_pos
      have hin := hlook.windowed.inside
      obtain ⟨r, hrun, hr, hrl, hagree'⟩ := MatchFinder.updateMaxLen_spec hlook.windowed hreach
        hagree (show 3 ≤ m1.lenLimit by omega) (by omega)
      simp only [sub_ok hone, ok_bind, hrun]
      exact hlook.longest hmask (by omega) hrl (hfound.snoc (by omega)
        (.of_agrees (by omega) hone hdP (show P + r ≤ src.length by omega) hagree' hdist))

theorem hc5GetMatches_spec (h : Stands m src P A) (hkind : m.kind = .hc5) (hA : 0 < A) :
    ∃ found m' A', m.hc5GetMatches = .ok (found, m') ∧
      Found src m.historySize P m.lenLimit found ∧ Stands m' src (P + 1) A' ∧ A ≤ A' + 1 ∧
      m'.toFinderConfig = m.toFinderConfig := by
  have hbytes : m.numHashBytes = 5 := by
    rw [h.config.numHashBytes, hkind]
    rfl
  unfold MatchFinder.hc5GetMatches
  by_cases hlen : m.lenLimit < 5
  · obtain ⟨m', A', hmove, hstands, hle, hconfig⟩ := h.movePos hA (by omega)
    simp only [if_pos hlen, hmove, ok_bind]
    exact ⟨[], m', A', rfl, .nil _ _ _ _, hstands, hle, hconfig⟩
  obtain ⟨win, h2, h3, hv, d2, d3, m1, n, o, q, found, back, hslice, hcalc, hmask, henter, hlook,
    hpos, hbuffer, hlimit, hconfig, hpairs, hfound, hback⟩ :=
    h.looks true (by omega) hbytes
  rw [hbytes] at hslice
  rw [hbuffer] at hpairs
  rw [← hconfig] at hmask
  simp only [if_neg hlen, hslice, hcalc, henter, hpairs, ok_bind]
  rw [← hconfig] at hfound hback ⊢
  rw [← hlimit] at hlen ⊢
  rw [← hpos, ← hbuffer]
  cases back with
  | none => exact hlook.hcRest hmask (by norm_num) (by omega) (hfound.mono (by norm_num))
  | some d =>
      obtain ⟨hone, hdP, hdist, hreach, hagree⟩ := hback d rfl
      rw [← hbuffer] at hreach
      have hlim := hlook.limited.lenLimit
      have hn := hlook.n_pos
      have hin := hlook.windowed.inside
      obtain ⟨b, hb, hsrc⟩ := hlook.windowed.byte (show 3 < A by omega)
      obtain ⟨b', hb', hsrc'⟩ := hlook.windowed.backByte hreach (show 3 < A by omega)
      have hindex : m1.buffer - d + 3 = m1.buffer + 3 - d := by omega
      simp only [sub_ok hone, sub_ok hreach, ok_bind, hindex, byteAt_ok hb, byteAt_ok hb']
      by_cases hfourth : b'.toNat = b.toNat
      · have hagree4 : Agrees src P d 4 := by
          intro k hk
          by_cases hk3 : k < 3
          · exact hagree k hk3
          · obtain rfl : k = 3 := by omega
            rw [hsrc, hsrc', UInt8.toNat_inj.mp hfourth]
        obtain ⟨r, hrun, hr, hrl, hagree'⟩ := MatchFinder.updateMaxLen_spec hlook.windowed hreach
          hagree4 (show 4 ≤ m1.lenLimit by omega) (by omega)
        simp only [ne_eq, hfourth, not_true_eq_false, if_false, hrun, ok_bind]
        exact hlook.longest hmask (by omega) hrl (hfound.snoc (by omega)
          (.of_agrees (by omega) hone hdP (show P + r ≤ src.length by omega) hagree' hdist))
      · rw [if_pos hfourth]
        exact hlook.hcRest hmask (by norm_num) (by omega) ((hfound.snoc (by norm_num)
          (.of_agrees (by norm_num) hone hdP (show P + 3 ≤ src.length by omega) hagree
            hdist)).mono (by norm_num))

/-! ## Skipping -/

/-- A position whose head was taken before it. -/
theorem Tabled.queued {pos cyc h2 h3 head : ℕ} (hc : m.toFinderConfig.Ok)
    (h : Tabled m src o pos cyc n (q + 1)) (hpos : 0 < pos) (hP : P + 1 = pos + o)
    (hcyc : cyc < m.cyclicBufferSize) (hlt2 : h2 < kHash2Size) (hlt3 : h3 < kHash3Size)
    (htwo : hash2At src P = some h2) (hthree : hash3At src P = some h3) (hhead : head < pos) :
    Tabled { m with
      hash := (lowEntered m.hash h2 h3 pos).setIfInBounds (m.sonBase + cyc) head
      headsAt := m.headsAt + 1 } src o (pos + 1) (cyc + 1) (n - 1) q := by
  have hson := hc.sonBase
  have hfix := hc.fixedHashSize
  have hend := h.queue.headsEnd
  have hwithin := h.queue.within
  refine ⟨(h.low.enter hpos hP hlt2 hlt3 htwo hthree).put_above (by omega) head, ?_,
    (h.links.lowEntered hc hlt2 hlt3 pos).put hcyc hhead, ?_⟩
  · have hbig := (h.big.lowEntered hfix hlt2 hlt3 pos).put_outside
      (.inr (show m.fixedHashSize + m.hashMask < m.sonBase + cyc by omega)) head
    rwa [show pos + (q + 1) = pos + 1 + q by omega] at hbig
  · refine ⟨?_, h.queue.bound, h.queue.pos_size, by omega, fun hoff => ?_, fun j hj => ?_⟩
    · change m.headsEnd = m.headsAt + 1 + q
      omega
    · cases h.queue.off hoff
    · obtain ⟨v, hv, hlt⟩ := h.queue.before (j + 1) (by omega)
      refine ⟨v, ?_, by omega⟩
      change m.heads[m.headsAt + 1 + j]? = some v
      rw [← hv]
      congr 1
      omega

/-- A position that is looked up in the big table. -/
theorem Tabled.fresh {pos cyc h2 h3 hv head : ℕ} (hc : m.toFinderConfig.Ok)
    (h : Tabled m src o pos cyc n 0) (hpos : 0 < pos) (hP : P + 1 = pos + o)
    (hcyc : cyc < m.cyclicBufferSize) (hlt2 : h2 < kHash2Size) (hlt3 : h3 < kHash3Size)
    (htwo : hash2At src P = some h2) (hthree : hash3At src P = some h3) (hv' : hv ≤ m.hashMask)
    (hhead : head < pos) :
    Tabled { m with hash := (lowEntered (m.hash.setIfInBounds (m.sonBase + cyc) head) h2 h3
      pos).setIfInBounds (m.fixedHashSize + hv) pos } src o (pos + 1) (cyc + 1) (n - 1) 0 := by
  have hson := hc.sonBase
  have hfix := hc.fixedHashSize
  have hlow := (h.low.put_above (i := m.sonBase + cyc) (by omega) head).enter hpos hP hlt2 hlt3
    htwo hthree
  have hbig : BigTable m.toFinderConfig (pos + 1) _ := ((h.big.put_outside
    (.inr (show m.fixedHashSize + m.hashMask < m.sonBase + cyc by omega)) head).lowEntered
      hfix hlt2 hlt3 pos).mono (Nat.le_succ _)
  have hlinks := (h.links.put hcyc hhead).lowEntered hc hlt2 hlt3 pos
  have hout := (OutsideBig.refl m.toFinderConfig (lowEntered
    (m.hash.setIfInBounds (m.sonBase + cyc) head) h2 h3 pos)).put hv' pos
  exact ⟨hout.low hc hlow, hbig.put hv' (Nat.lt_succ_self _), hout.links hc hlinks,
    { h.queue.restart with }⟩

theorem wrappingAdd32_next {p pos k : ℕ} (hp : 0 < k + 1 → p = pos) (hle : pos + (k + 1) ≤ 2 ^ 32) :
    0 < k → wrappingAdd32 p 1 = pos + 1 := by
  intro hk
  rw [hp (Nat.succ_pos k), wrappingAdd32]
  exact Nat.mod_eq_of_lt (by omega)

/-- The bytes behind the first one. -/
theorem same_tail {win : List UInt8} (h : ∀ i < win.length, win[i]? = src[P + i]?) :
    ∀ i < win.tail.length, win.tail[i]? = src[P + 1 + i]? := by
  intro i hi
  rw [List.length_tail] at hi
  rw [List.getElem?_tail, h (i + 1) (by omega)]
  congr 1
  omega

theorem skipQueued_spec {k i p pos cyc : ℕ} {win : List UInt8}
    (ht : Tabled m src o pos (cyc + i) n q) (hc : m.toFinderConfig.Ok) (hk : k ≤ q)
    (hpos : 0 < pos) (hP : P + 1 = pos + o)
    (hp : 0 < k → p = pos) (hle : pos + k ≤ 2 ^ 32)
    (hcyc : cyc + i + k ≤ m.cyclicBufferSize) (hlen : k + 2 ≤ win.length)
    (hwin : ∀ i < win.length, win[i]? = src[P + i]?) : ∃ hash headsAt,
      MatchFinder.skipQueued cyc k i p win m = .ok { m with hash, headsAt } ∧
      Tabled { m with hash, headsAt } src o (pos + k) (cyc + i + k) (n - k) (q - k) := by
  induction k generalizing m P i p pos n q win with
  | zero => exact ⟨m.hash, m.headsAt, rfl, ht⟩
  | succ k ih =>
      obtain ⟨q, rfl⟩ : ∃ q', q = q' + 1 := ⟨q - 1, by omega⟩
      obtain rfl := hp (Nat.succ_pos k)
      match win, hlen, hwin with
      | [], hlen, _ | [_], hlen, _ | [_, _], hlen, _ =>
        simp only [List.length_nil, List.length_cons] at hlen
        omega
      | b0 :: b1 :: b2 :: bs, hlen, hwin =>
        obtain ⟨hlt2, hlt3, htwo, hthree⟩ := lowHashes_spec hwin
        obtain ⟨head, hget, hhead⟩ := ht.queue.before 0 (Nat.succ_pos q)
        obtain ⟨hsize2, hsize3⟩ := ht.low.size_lt
        have hsize := ht.links.size
        have hnext := ht.queued hc hpos hP (by omega) hlt2 hlt3 htwo hthree hhead
        rw [Nat.add_assoc cyc i 1] at hnext
        obtain ⟨hash, headsAt, hrest, ht'⟩ := ih hnext hc (Nat.le_of_succ_le_succ hk)
          (Nat.succ_pos p) (show P + 1 + 1 = p + 1 + o by omega) (wrappingAdd32_next hp hle)
          (by omega)
          (show cyc + (i + 1) + k ≤ m.cyclicBufferSize by omega) (by
            rw [List.length_tail]
            omega) (same_tail hwin)
        refine ⟨hash, headsAt, ?_, ?_⟩
        · rw [MatchFinder.skipQueued]
          rw [Nat.add_zero] at hget
          simp only [put_ok (hsize2 _ hlt2), ok_bind,
            put_ok (show kFix3HashSize + hash3Of b0 b1 b2 <
            (m.hash.setIfInBounds (hash2Of b0 b1) p).size by
              rw [Array.size_setIfInBounds]
              exact hsize3 _ hlt3), get_ok hget]
          rw [← lowEntered, put_ok (by
            rw [lowEntered_size]
            omega), ok_bind]
          exact hrest
        · rw [show p + (k + 1) = p + 1 + k by omega, show n - (k + 1) = n - 1 - k by omega,
            Nat.add_sub_add_right, show cyc + i + (k + 1) = cyc + (i + 1) + k by omega]
          exact ht'

theorem skipFresh_spec {k i p pos cyc : ℕ} {win : List UInt8} {five : Bool}
    (ht : Tabled m src o pos (cyc + i) n 0) (hc : m.toFinderConfig.Ok) (hpos : 0 < pos)
    (hP : P + 1 = pos + o) (hp : p = pos % 2 ^ 32) (hle : pos + k ≤ 2 ^ 32)
    (hcyc : cyc + i + k ≤ m.cyclicBufferSize) (hlen : k = 0 ∨ k + 3 + five.toNat ≤ win.length)
    (hwin : ∀ i < win.length, win[i]? = src[P + i]?) : ∃ hash,
      MatchFinder.skipFresh five kFix4HashSize cyc k i p win m =
        .ok ((pos + k) % 2 ^ 32, { m with hash }) ∧
      Tabled { m with hash } src o (pos + k) (cyc + i + k) (n - k) 0 := by
  induction k generalizing m P i p pos n win with
  | zero => exact ⟨m.hash, by rw [MatchFinder.skipFresh, hp]; rfl, ht⟩
  | succ k ih =>
      have hlen := hlen.resolve_left (Nat.succ_ne_zero k)
      have hsame : p = pos := by rw [hp, Nat.mod_eq_of_lt (by omega)]
      subst hsame
      obtain ⟨h2, h3, hv, hcalc, hlt2, hlt3, hmask, htwo, hthree⟩ :=
        @hashCalc_spec src win five m.hashMask P (by omega) hwin
      obtain ⟨head, hget, hhead⟩ := ht.big hv hmask
      obtain ⟨hsize2, hsize3⟩ := ht.low.size_lt
      have hsize := ht.links.size
      have hbig := ht.big.size_lt hmask
      have hnext := ht.fresh hc hpos hP (by omega) hlt2 hlt3 htwo hthree hmask hhead
      rw [Nat.add_assoc cyc i 1] at hnext
      obtain ⟨hash, hrest, ht'⟩ := ih hnext hc (Nat.succ_pos p)
        (show P + 1 + 1 = p + 1 + o by omega) rfl (by omega)
        (show cyc + (i + 1) + k ≤ m.cyclicBufferSize by omega) (by
          rw [List.length_tail]
          omega) (same_tail hwin)
      refine ⟨hash, ?_, ?_⟩
      · rw [MatchFinder.skipFresh, hcalc, ok_bind]
        rw [hc.fixedHashSize] at hget hbig hrest
        simp only [get_ok hget, ok_bind]
        rw [put_ok (by omega), ok_bind, put_ok (by
          rw [Array.size_setIfInBounds]
          exact hsize2 _ hlt2), ok_bind, put_ok (by
          rw [Array.size_setIfInBounds, Array.size_setIfInBounds]
          exact hsize3 _ hlt3), ok_bind, ← lowEntered, put_ok (by
          rw [lowEntered_size, Array.size_setIfInBounds]
          exact hbig), ok_bind]
        rw [wrappingAdd32]
        rw [show p + (k + 1) = p + 1 + k by omega]
        exact hrest
      · rw [show p + (k + 1) = p + 1 + k by omega, show n - (k + 1) = n - 1 - k by omega,
          show cyc + i + (k + 1) = cyc + (i + 1) + k by omega]
        exact ht'

/-- As many positions as there are before the next limit. -/
theorem Stands.skipRun {k : ℕ} (h : Stands m src P A) (hlen : m.numHashBytes ≤ m.lenLimit)
    (hl : Limited m A n) (hk : 0 < k) (hkn : k ≤ n) : ∃ m' A',
      m.skipRun m.numHashBytes k = .ok m' ∧ Stands m' src (P + k) A' ∧ A ≤ A' + k ∧
      m'.toFinderConfig = m.toFinderConfig := by
  obtain ⟨n', hl', ht⟩ := h.limited
  obtain rfl : n' = n := hl'.distance.symm.trans hl.distance
  obtain ⟨hpos, o, q, hP, ht⟩ := ht hlen
  have hc := h.config
  have hw := h.windowed
  have hlim := hl.lenLimit
  have hbytes := hc.hashBytes
  have hlong := hw.length_le
  have hin := hw.inside
  have hbuffer := hw.buffer_le
  have hle := hl.pos_le
  have hring := hl.cyclic
  have hend := ht.queue.headsEnd
  have hwithin := ht.queue.within
  have hfive : decide (m.numHashBytes ≠ 4) = decide (m.kind = .hc5) := by
    rw [hbytes]
    rcases hc.kind with hkind | hkind <;> rw [hkind] <;> rfl
  have hfix : (if m.numHashBytes = 4 then kFix4HashSize else kFix5HashSize) = kFix4HashSize :=
    ite_self _
  have hslice := @slice_ok m.bufBase m.buffer (m.buffer + k + m.numHashBytes - 1) (by omega)
    (by omega)
  generalize hwin : (m.bufBase.drop m.buffer).take
    (m.buffer + k + m.numHashBytes - 1 - m.buffer) = win at hslice
  have hwidth : win.length = k + m.numHashBytes - 1 := by
    rw [← hwin, List.length_take, List.length_drop]
    omega
  have hsame : ∀ i < win.length, win[i]? = src[P + i]? := by
    intro i hi
    rw [← hwin, List.getElem?_take_of_lt (by omega), List.getElem?_drop, hw.window _ (by omega)]
    congr 1
    omega
  have hqueue : min k (m.headsEnd - m.headsAt) = min k q := by
    rw [hend, Nat.add_sub_cancel_left]
  generalize hj : min k q = j at hqueue
  -- first the positions in the queue
  obtain ⟨hash, headsAt, hqueued, ht1⟩ := @skipQueued_spec
    { m with cyclicBufferPos := m.cyclicBufferPos + k } src P n' o q j 0 m.pos m.pos
    m.cyclicBufferPos win ⟨ht.low, ht.big, ht.links, { ht.queue with }⟩ hc (by omega) hpos hP
    (fun _ => rfl) (by omega) (show m.cyclicBufferPos + 0 + j ≤ m.cyclicBufferSize by omega)
    (by omega) hsame
  rw [Nat.add_zero] at ht1
  -- then the others
  obtain ⟨hash', q', hfresh, ht2⟩ : ∃ hash' q', MatchFinder.skipFresh (decide (m.kind = .hc5))
      kFix4HashSize m.cyclicBufferPos (k - j) j (wrappingAdd32 m.pos j) (win.drop j)
        { m with cyclicBufferPos := m.cyclicBufferPos + k, hash, headsAt } =
      .ok ((m.pos + k) % 2 ^ 32,
        { m with cyclicBufferPos := m.cyclicBufferPos + k, hash := hash', headsAt }) ∧
      Tabled { m with cyclicBufferPos := m.cyclicBufferPos + k, hash := hash', headsAt } src o
        (m.pos + k) (m.cyclicBufferPos + k) (n' - k) q' := by
    by_cases hall : k ≤ q
    · obtain rfl : j = k := by omega
      rw [Nat.sub_self]
      exact ⟨hash, q - j, rfl, ht1⟩
    · obtain rfl : j = q := by omega
      rw [Nat.sub_self] at ht1
      obtain ⟨hash', hfresh, ht2⟩ := @skipFresh_spec
        { m with cyclicBufferPos := m.cyclicBufferPos + k, hash, headsAt } src (P + j) (n' - j) o
        (k - j) j (wrappingAdd32 m.pos j) (m.pos + j) m.cyclicBufferPos (win.drop j)
        (decide (m.kind = .hc5)) ht1 hc (by omega) (by omega) (by rw [wrappingAdd32]) (by omega)
        (show m.cyclicBufferPos + j + (k - j) ≤ m.cyclicBufferSize by omega) (by
          rw [List.length_drop]
          omega) fun i hi => by
          rw [List.length_drop] at hi
          rw [List.getElem?_drop, hsame _ (by omega), Nat.add_assoc]
      rw [show m.pos + j + (k - j) = m.pos + k by omega] at hfresh ht2
      rw [show m.cyclicBufferPos + j + (k - j) = m.cyclicBufferPos + k by omega,
        show n' - j - (k - j) = n' - k by omega] at ht2
      exact ⟨hash', 0, hfresh, ht2⟩
  obtain ⟨m', A', hpassed, hstands, hmore, hconfig⟩ := MatchFinder.passed_spec
    (m := { m with hash := hash', headsAt }) (k := k) hc
    (hw.tables hash' m.heads headsAt m.headsEnd)
    (hl.tables hash' m.heads headsAt m.headsEnd) hk hkn fun _ =>
      ⟨hpos, o, q', hP, ht2.low, ht2.big, ht2.links, { ht2.queue with }⟩
  refine ⟨m', A', ?_, hstands, hmore, hconfig⟩
  unfold MatchFinder.skipRun
  simp only [hfive, hfix, hslice, hqueue, hqueued, hfresh, ok_bind]
  exact hpassed

/-- Positions are skipped up to each limit. -/
theorem hcSkip_spec {fuel num : ℕ} (h : Stands m src P A) (hnum : num ≤ A) (hfuel : num ≤ fuel) :
    ∃ m' A', MatchFinder.hcSkip m.numHashBytes fuel num m = .ok m' ∧
      Stands m' src (P + num) A' ∧ A ≤ A' + num ∧ m'.toFinderConfig = m.toFinderConfig := by
  induction fuel generalizing m P A num with
  | zero =>
      obtain rfl : num = 0 := by omega
      exact ⟨m, A, rfl, h, le_rfl, rfl⟩
  | succ fuel ih =>
      cases num with
      | zero => exact ⟨m, A, rfl, h, le_rfl, rfl⟩
      | succ num =>
          rw [MatchFinder.hcSkip]
          by_cases hlen : m.lenLimit < m.numHashBytes
          · obtain ⟨m1, A1, hmove, h1, hle1, hconfig1⟩ := h.movePos (by omega) hlen
            obtain ⟨m', A', hrest, h', hle', hconfig'⟩ :=
              ih h1 (show num ≤ A1 by omega) (by omega)
            rw [hconfig1] at hrest
            rw [if_pos hlen, hmove, ok_bind]
            rw [show P + (num + 1) = P + 1 + num by omega]
            exact ⟨m', A', hrest, h', by omega, hconfig'.trans hconfig1⟩
          · obtain ⟨n, hl, ht⟩ := h.limited
            have hn := hl.n_pos
            simp only [if_neg hlen, hl.distance]
            generalize hk : (if n ≤ num + 1 then n else num + 1) = k
            have hkn : k ≤ n ∧ k ≤ num + 1 ∧ 0 < k := by
              rw [← hk]
              split <;> omega
            obtain ⟨m1, A1, hrun, h1, hle1, hconfig1⟩ :=
              h.skipRun (not_lt.mp hlen) hl hkn.2.2 hkn.1
            obtain ⟨m', A', hrest, h', hle', hconfig'⟩ :=
              ih h1 (show num + 1 - k ≤ A1 by omega) (by omega)
            rw [hconfig1] at hrest
            rw [hrun, ok_bind, show P + (num + 1) = P + k + (num + 1 - k) by omega]
            exact ⟨m', A', hrest, h', by omega, hconfig'.trans hconfig1⟩

end

end LzmaTurbo.Enc
