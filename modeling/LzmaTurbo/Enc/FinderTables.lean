import LzmaTurbo.Enc.FinderState

/-!
# Entering a position in the tables

The tables lie behind one another, so an entry of one leaves the others alone.
-/
namespace LzmaTurbo.Enc
open Machine

section
variable {c : FinderConfig} {src : List UInt8} {o pos cyc bound i v : ℕ} {hash : Array ℕ}

theorem get?_put_ne {j : ℕ} (h : j ≠ i) : (hash.setIfInBounds i v)[j]? = hash[j]? := by
  rw [Array.getElem?_setIfInBounds, if_neg h.symm]

theorem get?_put_self (h : i < hash.size) : (hash.setIfInBounds i v)[i]? = some v := by
  rw [Array.getElem?_setIfInBounds, if_pos rfl, if_pos h]

theorem Entry.mono {hashAt : ℕ → Option ℕ} (h : Entry hashAt o pos i v) :
    Entry hashAt o (pos + 1) i v := by
  rcases h with h | ⟨h1, h2, h3⟩
  · exact .inl h
  · exact .inr ⟨h1, by omega, h3⟩

theorem LowTables.mono (h : LowTables src o pos hash) : LowTables src o (pos + 1) hash where
  two j hj := (h.two j hj).imp fun _ hv => ⟨hv.1, hv.2.mono⟩
  three j hj := (h.three j hj).imp fun _ hv => ⟨hv.1, hv.2.mono⟩

theorem LowTables.put_above (h : LowTables src o pos hash) (hi : kFix4HashSize ≤ i) (v : ℕ) :
    LowTables src o pos (hash.setIfInBounds i v) where
  two j hj := by
    rw [get?_put_ne (by simp only [kFix4HashSize] at hi; omega)]
    exact h.two j hj
  three j hj := by
    rw [get?_put_ne (by simp only [kFix3HashSize, kFix4HashSize] at hi ⊢; omega)]
    exact h.three j hj

theorem BigTable.mono {bound' : ℕ} (h : BigTable c bound hash) (hle : bound ≤ bound') :
    BigTable c bound' hash :=
  fun j hj => (h j hj).imp fun _ hv => ⟨hv.1, by omega⟩

theorem BigTable.put_outside (h : BigTable c bound hash)
    (hi : i < c.fixedHashSize ∨ c.fixedHashSize + c.hashMask < i) (v : ℕ) :
    BigTable c bound (hash.setIfInBounds i v) := by
  intro j hj
  rw [get?_put_ne (by omega)]
  exact h j hj

theorem BigTable.size_lt (h : BigTable c bound hash) (hi : i ≤ c.hashMask) :
    c.fixedHashSize + i < hash.size := by
  obtain ⟨v, hv, -⟩ := h i hi
  exact (Array.getElem?_eq_some_iff.mp hv).1

/-- A position is entered in the big table. -/
theorem BigTable.put (h : BigTable c bound hash) (hi : i ≤ c.hashMask) (hv : v < bound) :
    BigTable c bound (hash.setIfInBounds (c.fixedHashSize + i) v) := by
  intro j hj
  by_cases hji : j = i
  · rw [hji, get?_put_self (h.size_lt hi)]
    exact ⟨v, rfl, hv⟩
  · rw [get?_put_ne (by omega)]
    exact h j hj

theorem Links.put_below (h : Links c pos cyc hash) (hi : i < c.sonBase) (v : ℕ) :
    Links c pos cyc (hash.setIfInBounds i v) where
  size := by
    rw [Array.size_setIfInBounds]
    exact h.size
  back d h1 h2 h3 := by
    have hne : sonIndex c cyc d ≠ i := by
      unfold sonIndex
      omega
    rw [get?_put_ne hne]
    exact h.back d h1 h2 h3

/-- The link of `pos` itself; the ring's oldest place is taken over. -/
theorem Links.put (h : Links c pos cyc hash) (hcyc : cyc < c.cyclicBufferSize) (hv : v < pos) :
    Links c (pos + 1) (cyc + 1) (hash.setIfInBounds (c.sonBase + cyc) v) where
  size := by
    rw [Array.size_setIfInBounds]
    exact h.size
  back d h1 h2 h3 := by
    by_cases hd : d = 1
    · have hself : sonIndex c (cyc + 1) d = c.sonBase + cyc := by
        unfold sonIndex
        rw [if_neg (by omega)]
        omega
      rw [hself, get?_put_self (by have := h.size; omega)]
      exact ⟨v, rfl, by omega⟩
    · have hshift : sonIndex c (cyc + 1) d = sonIndex c cyc (d - 1) := by
        unfold sonIndex
        split <;> split <;> omega
      have hne : sonIndex c cyc (d - 1) ≠ c.sonBase + cyc := by
        unfold sonIndex
        split <;> omega
      rw [hshift, get?_put_ne hne]
      obtain ⟨w, hw, hlt⟩ := h.back (d - 1) (by omega) (by omega) (by omega)
      exact ⟨w, hw, by omega⟩

end

/-- `pos` in both low tables. -/
def lowEntered (hash : Array ℕ) (h2 h3 pos : ℕ) : Array ℕ :=
  (hash.setIfInBounds h2 pos).setIfInBounds (kFix3HashSize + h3) pos

section
variable {c : FinderConfig} {src : List UInt8} {o pos cyc bound h2 h3 P : ℕ} {hash : Array ℕ}

theorem lowEntered_size (hash : Array ℕ) (h2 h3 pos : ℕ) :
    (lowEntered hash h2 h3 pos).size = hash.size := by
  rw [lowEntered, Array.size_setIfInBounds, Array.size_setIfInBounds]

theorem LowTables.size_lt (h : LowTables src o pos hash) :
    (∀ i < kHash2Size, i < hash.size) ∧ ∀ i < kHash3Size, kFix3HashSize + i < hash.size :=
  ⟨fun i hi => have ⟨_, hv, _⟩ := h.two i hi; (Array.getElem?_eq_some_iff.mp hv).1,
    fun i hi => have ⟨_, hv, _⟩ := h.three i hi; (Array.getElem?_eq_some_iff.mp hv).1⟩

theorem LowTables.enter (h : LowTables src o pos hash) (hpos : 0 < pos) (hP : P + 1 = pos + o)
    (hlt2 : h2 < kHash2Size) (hlt3 : h3 < kHash3Size) (htwo : hash2At src P = some h2)
    (hthree : hash3At src P = some h3) :
    LowTables src o (pos + 1) (lowEntered hash h2 h3 pos) := by
  have hself : pos + o - 1 = P := by omega
  obtain ⟨hsize2, hsize3⟩ := h.size_lt
  constructor
  · intro j hj
    rw [lowEntered, get?_put_ne (by simp only [kFix3HashSize]; omega)]
    by_cases hj2 : j = h2
    · rw [hj2, get?_put_self (hsize2 h2 hlt2)]
      exact ⟨pos, rfl, .inr ⟨hpos, by omega, by rw [hself, htwo]⟩⟩
    · rw [get?_put_ne hj2]
      exact h.mono.two j hj
  · intro j hj
    by_cases hj3 : j = h3
    · rw [hj3, lowEntered, get?_put_self (by
        rw [Array.size_setIfInBounds]
        exact hsize3 h3 hlt3)]
      exact ⟨pos, rfl, .inr ⟨hpos, by omega, by rw [hself, hthree]⟩⟩
    · rw [lowEntered, get?_put_ne (by omega), get?_put_ne (by simp only [kFix3HashSize]; omega)]
      exact h.mono.three j hj

theorem BigTable.lowEntered (h : BigTable c bound hash) (hc : c.fixedHashSize = kFix4HashSize)
    (hlt2 : h2 < kHash2Size) (hlt3 : h3 < kHash3Size) (v : ℕ) :
    BigTable c bound (lowEntered hash h2 h3 v) := by
  have hfix : kHash2Size + kHash3Size = c.fixedHashSize := hc.symm
  exact (h.put_outside (.inl (by omega)) v).put_outside (.inl (by
    simp only [kFix3HashSize]
    omega)) v

theorem Links.lowEntered (h : Links c pos cyc hash) (hc : c.Ok) (hlt2 : h2 < kHash2Size)
    (hlt3 : h3 < kHash3Size) (v : ℕ) : Links c pos cyc (lowEntered hash h2 h3 v) := by
  have hfix : kHash2Size + kHash3Size = c.fixedHashSize := hc.fixedHashSize.symm
  have hson := hc.sonBase
  exact (h.put_below (by omega) v).put_below (by
    simp only [kFix3HashSize]
    omega) v

/-- How far back a low hash was seen last: nowhere, or at bytes of that hash. -/
def LowDist (hashAt : ℕ → Option ℕ) (P pos i d : ℕ) : Prop :=
  d = pos ∨ 1 ≤ d ∧ d < pos ∧ hashAt (P - d) = some i

theorem Entry.dist {hashAt : ℕ → Option ℕ} {i v : ℕ} (h : Entry hashAt o pos i v)
    (hP : P + 1 = pos + o) : v ≤ pos ∧ LowDist hashAt P pos i (pos - v) := by
  rcases h with rfl | ⟨h1, h2, h3⟩
  · exact ⟨Nat.zero_le _, .inl rfl⟩
  · refine ⟨h2.le, .inr ⟨by omega, by omega, ?_⟩⟩
    rw [← h3]
    congr 1
    omega

end

/-- The low hashes' distances are those of their last bytes. -/
theorem MatchFinder.enterLow_spec {m : MatchFinder} {src : List UInt8} {o P h2 h3 : ℕ}
    (h : LowTables src o m.pos m.hash) (hP : P + 1 = m.pos + o) (hlt2 : h2 < kHash2Size)
    (hlt3 : h3 < kHash3Size) : ∃ d2 d3,
      m.enterLow h2 h3 = .ok (d2, d3, { m with hash := lowEntered m.hash h2 h3 m.pos }) ∧
      LowDist (hash2At src) P m.pos h2 d2 ∧ LowDist (hash3At src) P m.pos h3 d3 := by
  obtain ⟨v2, hv2, hentry2⟩ := h.two h2 hlt2
  obtain ⟨v3, hv3, hentry3⟩ := h.three h3 hlt3
  obtain ⟨hle2, hdist2⟩ := hentry2.dist hP
  obtain ⟨hle3, hdist3⟩ := hentry3.dist hP
  obtain ⟨hsize2, hsize3⟩ := h.size_lt
  refine ⟨m.pos - v2, m.pos - v3, ?_, hdist2, hdist3⟩
  rw [enterLow, get_ok hv2, ok_bind, sub_ok hle2, ok_bind, get_ok hv3, ok_bind, sub_ok hle3,
    ok_bind, put_ok (hsize2 h2 hlt2), ok_bind, put_ok (by
      rw [Array.size_setIfInBounds]
      exact hsize3 h3 hlt3), ok_bind]
  rfl

/-! ## The hash of a position -/

section
variable {src win : List UInt8} {five : Bool} {mask P : ℕ}

/-- The low hashes of the bytes at `P`. -/
theorem lowHashes_spec {b0 b1 b2 : UInt8} {bs : List UInt8}
    (hwin : ∀ i < (b0 :: b1 :: b2 :: bs).length, (b0 :: b1 :: b2 :: bs)[i]? = src[P + i]?) :
    hash2Of b0 b1 < kHash2Size ∧ hash3Of b0 b1 b2 < kHash3Size ∧
      hash2At src P = some (hash2Of b0 b1) ∧ hash3At src P = some (hash3Of b0 b1 b2) := by
  have h0 : src[P]? = some b0 := (hwin 0 (Nat.succ_pos _)).symm
  have h1 : src[P + 1]? = some b1 := (hwin 1 (Nat.succ_lt_succ (Nat.succ_pos _))).symm
  have h2 : src[P + 2]? = some b2 :=
    (hwin 2 (Nat.succ_lt_succ (Nat.succ_lt_succ (Nat.succ_pos _)))).symm
  refine ⟨lt_of_le_of_lt Nat.and_le_right (by decide), lt_of_le_of_lt Nat.and_le_right (by decide),
    ?_, ?_⟩
  · rw [hash2At, h0, h1]
    rfl
  · rw [hash3At, h0, h1, h2]
    rfl

/-- The hashes of the bytes at `P`. -/
theorem hashCalc_spec (hlen : 4 + five.toNat ≤ win.length)
    (hwin : ∀ i < win.length, win[i]? = src[P + i]?) :
    ∃ h2 h3 hv, hashCalc five mask win = .ok (h2, h3, hv) ∧ h2 < kHash2Size ∧ h3 < kHash3Size ∧
      hv ≤ mask ∧ hash2At src P = some h2 ∧ hash3At src P = some h3 := by
  match win, hlen with
  | [], h | [_], h | [_, _], h | [_, _, _], h =>
    simp only [List.length_nil, List.length_cons] at h
    omega
  | b0 :: b1 :: b2 :: b3 :: bs, hlen =>
    obtain ⟨hlt2, hlt3, htwo, hthree⟩ := lowHashes_spec hwin
    cases five with
    | false => exact ⟨_, _, _, rfl, hlt2, hlt3, Nat.and_le_right, htwo, hthree⟩
    | true =>
        match bs, hlen with
        | [], h =>
          simp only [List.length_nil, List.length_cons, Bool.toNat_true] at h
          omega
        | b4 :: bs, _ => exact ⟨_, _, _, rfl, hlt2, hlt3, Nat.and_le_right, htwo, hthree⟩

/-- Four bytes or five have a place in the big table. -/
theorem hashCalc_ok (five : Bool) (mask : ℕ) (hlen : 4 + five.toNat ≤ win.length) : ∃ h2 h3 hv,
    hashCalc five mask win = .ok (h2, h3, hv) ∧ hv ≤ mask := by
  obtain ⟨h2, h3, hv, hcalc, -, -, hle, -⟩ :=
    @hashCalc_spec win win five mask 0 hlen fun i _ => by rw [Nat.zero_add]
  exact ⟨h2, h3, hv, hcalc, hle⟩

end

/-! ## The heads -/

/-- Only the big table differs. -/
structure OutsideBig (c : FinderConfig) (hash hash' : Array ℕ) : Prop where
  size : hash'.size = hash.size
  same : ∀ j, j < c.fixedHashSize ∨ c.fixedHashSize + c.hashMask < j → hash'[j]? = hash[j]?

section
variable {c : FinderConfig} {src : List UInt8} {o pos cyc : ℕ} {hash hash' hash'' : Array ℕ}

theorem OutsideBig.refl (c : FinderConfig) (hash : Array ℕ) : OutsideBig c hash hash :=
  ⟨rfl, fun _ _ => rfl⟩

theorem OutsideBig.put {i : ℕ} (h : OutsideBig c hash hash') (hi : i ≤ c.hashMask) (v : ℕ) :
    OutsideBig c hash (hash'.setIfInBounds (c.fixedHashSize + i) v) where
  size := by
    rw [Array.size_setIfInBounds]
    exact h.size
  same j hj := by
    rw [get?_put_ne (by omega)]
    exact h.same j hj

theorem OutsideBig.trans (h : OutsideBig c hash hash') (h' : OutsideBig c hash' hash'') :
    OutsideBig c hash hash'' :=
  ⟨h'.size.trans h.size, fun j hj => (h'.same j hj).trans (h.same j hj)⟩

theorem OutsideBig.low (h : OutsideBig c hash hash') (hc : c.Ok)
    (hl : LowTables src o pos hash) : LowTables src o pos hash' := by
  have hfix := hc.fixedHashSize
  simp only [kFix4HashSize] at hfix
  constructor
  · intro j hj
    rw [h.same j (.inl (by omega))]
    exact hl.two j hj
  · intro j hj
    rw [h.same _ (.inl (by simp only [kFix3HashSize]; omega))]
    exact hl.three j hj

theorem OutsideBig.links (h : OutsideBig c hash hash') (hc : c.Ok)
    (hl : Links c pos cyc hash) : Links c pos cyc hash' where
  size := by
    rw [h.size]
    exact hl.size
  back d h1 h2 h3 := by
    have hson := hc.sonBase
    rw [h.same _ (.inr (by unfold sonIndex; omega))]
    exact hl.back d h1 h2 h3

/-- The heads of `n` positions from `p` on, each before its own. -/
theorem headsLoop_spec {five : Bool} {win : List UInt8} {n i q p : ℕ} (heads : Array ℕ)
    (hbig : BigTable c p hash) (hq : 0 < n → q = p) (hle : p + n ≤ 2 ^ 32)
    (hwin : n = 0 ∨ n + 3 + five.toNat ≤ win.length) (hheads : i + n ≤ heads.size) :
    ∃ hash' heads', MatchFinder.headsLoop five c.hashMask c.fixedHashSize win n i q hash heads =
        .ok (hash', heads') ∧ BigTable c (p + n) hash' ∧ OutsideBig c hash hash' ∧
      heads'.size = heads.size ∧ (∀ j < i, heads'[j]? = heads[j]?) ∧
      ∀ j < n, ∃ v, heads'[i + j]? = some v ∧ v < p + j := by
  induction n generalizing win i q p hash heads with
  | zero =>
      exact ⟨hash, heads, rfl, hbig, .refl c hash, rfl, fun _ _ => rfl, fun j hj => by omega⟩
  | succ n ih =>
      obtain rfl := hq (Nat.succ_pos n)
      have hlen := hwin.resolve_left (Nat.succ_ne_zero n)
      obtain ⟨h2, h3, hv, hcalc, hmask⟩ := hashCalc_ok five c.hashMask
        (show 4 + five.toNat ≤ win.length by omega)
      obtain ⟨v, hget, hlt⟩ := hbig hv hmask
      have hbig' : BigTable c (q + 1) (hash.setIfInBounds (c.fixedHashSize + hv) q) :=
        (hbig.mono (Nat.le_succ q)).put hmask (Nat.lt_succ_self q)
      have htail : n = 0 ∨ n + 3 + five.toNat ≤ win.tail.length := by
        rw [List.length_tail]
        omega
      obtain ⟨hash', heads', hloop, hbig'', hout, hsize, hsame, hbefore⟩ :=
        ih (i := i + 1) (q := wrappingAdd32 q 1) (heads.setIfInBounds i v) hbig'
          (fun hn => by
            rw [wrappingAdd32]
            exact Nat.mod_eq_of_lt (by omega)) (by omega) htail
          (by rw [Array.size_setIfInBounds]; omega)
      refine ⟨hash', heads', ?_, ?_, ?_, ?_, ?_, ?_⟩
      · rw [MatchFinder.headsLoop, hcalc, ok_bind]
        simp only [get_ok hget, ok_bind, put_ok (show i < heads.size by omega),
          put_ok (hbig.size_lt hmask)]
        exact hloop
      · rwa [Nat.add_assoc, Nat.add_comm 1] at hbig''
      · exact ((OutsideBig.refl c hash).put hmask q).trans hout
      · rw [hsize, Array.size_setIfInBounds]
      · intro j hj
        rw [hsame j (by omega), get?_put_ne (by omega)]
      · intro j hj
        cases j with
        | zero =>
            rw [Nat.add_zero, hsame i (Nat.lt_succ_self i), get?_put_self (by omega)]
            exact ⟨v, rfl, by omega⟩
        | succ j =>
            obtain ⟨w, hw, hwlt⟩ := hbefore j (by omega)
            exact ⟨w, by rw [← hw]; congr 1; omega, by omega⟩

end
theorem Windowed.length_le {m : MatchFinder} {src : List UInt8} {P A : ℕ}
    (h : Windowed m src P A) : m.buffer + A ≤ m.bufBase.length := by
  have hle := h.buffer_le
  have hin := h.inside
  by_contra hlt
  have hlast := h.window (m.buffer + A - 1) (by omega)
  rw [List.getElem?_eq_none (by omega), List.getElem?_eq_getElem (by omega)] at hlast
  cases hlast

theorem Limited.distance {m : MatchFinder} {A n : ℕ} (h : Limited m A n) :
    wrappingSub32 m.posLimit m.pos = n := by
  have h1 := h.pos_le
  have h2 := h.n_lt
  rw [wrappingSub32, h.posLimit]
  rcases Nat.lt_or_ge (m.pos + n) (2 ^ 32) with hlt | hge
  · rw [Nat.mod_eq_of_lt hlt, show m.pos + n + 2 ^ 32 - m.pos = n + 2 ^ 32 by omega,
      Nat.add_mod_right, Nat.mod_eq_of_lt h2]
  · rw [show m.pos + n = 2 ^ 32 by omega, Nat.mod_self, Nat.zero_add,
      show 2 ^ 32 - m.pos = n by omega, Nat.mod_eq_of_lt h2]

theorem FinderConfig.Ok.hashBytes {c : FinderConfig} (h : c.Ok) :
    c.numHashBytes = 4 + (decide (c.kind = .hc5)).toNat := by
  rw [h.numHashBytes]
  rcases h.kind with hk | hk <;> rw [hk] <;> rfl

/-- As many heads are taken as fit before the limit. -/
theorem MatchFinder.fillHeads_spec {m : MatchFinder} {src : List UInt8} {P A n : ℕ}
    (hc : m.toFinderConfig.Ok) (hw : Windowed m src P A) (hl : Limited m A n)
    (hlen : m.numHashBytes ≤ m.lenLimit) (hn : 0 < n) (hsize : 0 < m.heads.size)
    (hbig : BigTable m.toFinderConfig m.pos m.hash) : ∃ hash heads count,
      m.fillHeads m.pos m.buffer m.fixedHashSize =
        .ok { m with hash, heads, headsAt := 0, headsEnd := count } ∧ 0 < count ∧ count ≤ n ∧
      OutsideBig m.toFinderConfig m.hash hash ∧
      BigTable m.toFinderConfig (m.pos + count) hash ∧ count ≤ heads.size ∧
      ∀ j < count, ∃ v, heads[j]? = some v ∧ v < m.pos + j := by
  have hlong := hw.length_le
  have hlim := hl.lenLimit
  have hbytes := hc.hashBytes
  have hle := hl.pos_le
  unfold fillHeads
  rw [hl.distance]
  generalize hcount : min n m.heads.size = count
  generalize decide (m.kind = .hc5) = five at hbytes
  have hslice : m.buffer + count + 3 + five.toNat ≤ m.bufBase.length := by omega
  obtain ⟨hash, heads, hloop, hbig', hout, hsizes, -, hbefore⟩ := headsLoop_spec (i := 0)
    (n := count) (q := m.pos) m.heads hbig (fun _ => rfl) (by omega)
    (.inr (show count + 3 + five.toNat ≤ ((m.bufBase.drop m.buffer).take
      (m.buffer + count + 3 + five.toNat - m.buffer)).length by
      rw [List.length_take, List.length_drop]
      omega)) (by omega)
  refine ⟨hash, heads, count, ?_, by omega, by omega, hout, hbig', by omega, fun j hj => ?_⟩
  · simp only [slice_ok (show m.buffer ≤ m.buffer + count + 3 + five.toNat by omega) hslice,
      ok_bind, hloop]
  · obtain ⟨v, hv, hlt⟩ := hbefore j hj
    exact ⟨v, by rwa [Nat.zero_add] at hv, hlt⟩

/-- The head that is handed out lies before the position, which has its place in the big table
or will be found there. -/
theorem MatchFinder.takeHead_spec {m : MatchFinder} {src : List UInt8} {P A n q hv : ℕ}
    (hc : m.toFinderConfig.Ok) (hw : Windowed m src P A) (hl : Limited m A n)
    (hlen : m.numHashBytes ≤ m.lenLimit) (hn : 0 < n) (hq : Queue m m.pos n q)
    (hbig : BigTable m.toFinderConfig (m.pos + q) m.hash) (hv' : hv ≤ m.hashMask)
    (prefetch : Bool) : ∃ head hash heads headsAt headsEnd q',
      m.takeHead m.pos m.buffer m.fixedHashSize hv prefetch =
        .ok (head, { m with hash, heads, headsAt, headsEnd }) ∧ head < m.pos ∧
      OutsideBig m.toFinderConfig m.hash hash ∧
      BigTable m.toFinderConfig (m.pos + 1 + q') hash ∧
      Queue { m with hash, heads, headsAt, headsEnd } (m.pos + 1) (n - 1) q' := by
  have hend := hq.headsEnd
  have hwithin := hq.within
  have hbound := hq.bound
  unfold takeHead
  by_cases hdirect : m.hcHeads = false ∨ prefetch = false ∧ m.headsAt = m.headsEnd
  · -- one lookup in the big table
    rw [if_pos hdirect]
    have hempty : q = 0 := by
      rcases hdirect with hoff | ⟨-, heq⟩
      · exact hq.off hoff
      · omega
    subst hempty
    obtain ⟨head, hget, hlt⟩ := hbig hv hv'
    rw [get_ok hget, ok_bind, put_ok (hbig.size_lt hv'), ok_bind]
    refine ⟨head, _, m.heads, m.headsAt, m.headsEnd, 0, rfl, hlt, (OutsideBig.refl _ _).put hv' _,
      (hbig.mono (Nat.le_succ _)).put hv' (Nat.lt_succ_self _), ?_⟩
    exact ⟨hend, hbound, hq.pos_size, Nat.zero_le _, fun _ => rfl, fun j hj => by omega⟩
  · rw [if_neg hdirect]
    have hon : m.hcHeads ≠ false := fun hoff => hdirect (.inl hoff)
    by_cases hempty : m.headsAt = m.headsEnd
    · -- the queue is filled first
      obtain rfl : q = 0 := by omega
      obtain ⟨hash, heads, count, hfill, hpos, hle, hout, hbig', hsizes, hbefore⟩ :=
        fillHeads_spec hc hw hl hlen hn hq.pos_size hbig
      obtain ⟨head, hget, hlt⟩ := hbefore 0 hpos
      rw [if_pos hempty, hfill, ok_bind]
      simp only [get_ok hget, ok_bind]
      refine ⟨head, hash, heads, 1, count, count - 1, rfl, hlt, hout, ?_, ?_⟩
      · rwa [show m.pos + 1 + (count - 1) = m.pos + count by omega]
      · refine ⟨by show count = 1 + (count - 1); omega, hsizes, by show 0 < heads.size; omega,
          by omega, fun hoff => absurd hoff hon, fun j hj => ?_⟩
        obtain ⟨v, hv, hvlt⟩ := hbefore (1 + j) (by omega)
        exact ⟨v, hv, by omega⟩
    · rw [if_neg hempty, ok_bind]
      obtain ⟨head, hget, hlt⟩ := hq.before 0 (by omega)
      rw [Nat.add_zero] at hget hlt
      simp only [get_ok hget, ok_bind]
      refine ⟨head, m.hash, m.heads, m.headsAt + 1, m.headsEnd, q - 1, rfl, hlt, .refl _ _, ?_, ?_⟩
      · rwa [show m.pos + 1 + (q - 1) = m.pos + q by omega]
      · refine ⟨by show m.headsEnd = m.headsAt + 1 + (q - 1); omega, hbound, hq.pos_size,
          by omega, fun hoff => absurd hoff hon, fun j hj => ?_⟩
        obtain ⟨v, hv, hvlt⟩ := hq.before (j + 1) (by omega)
        exact ⟨v, by rw [← hv]; show m.heads[m.headsAt + 1 + j]? = _; congr 1; omega, by omega⟩

end LzmaTurbo.Enc
