import LzmaTurbo.Mt.SegQueue
import Mathlib

/-!
# What the queue counts and what it recycles
-/
namespace LzmaTurbo.Mt

theorem checkedSub_of_le {a b : ℕ} (h : b ≤ a) : checkedSub a b = some (a - b) := if_pos h

theorem some_bind {α β : Type} (a : α) (f : α → Option β) : (some a >>= f) = f a := rfl

theorem swapRemove_of_lt {α : Type} {l : List α} {i : ℕ} (h : i < l.length) :
    ∃ l', swapRemove l i = some (l[i], l') ∧ l.Perm (l[i] :: l') := by
  have hne : l ≠ [] := fun hl => by rw [hl] at h; exact absurd h (Nat.not_lt_zero _)
  obtain ⟨init, z, rfl⟩ : ∃ init z, l = init ++ [z] :=
    ⟨l.dropLast, l.getLast hne, (List.dropLast_concat_getLast hne).symm⟩
  refine ⟨((init ++ [z]).set i z).dropLast, ?_, ?_⟩
  · unfold swapRemove
    rw [List.getElem?_eq_getElem h, List.getLast?_concat]
  · rw [List.length_append, List.length_singleton] at h
    rcases Nat.lt_or_ge i init.length with hi | hi
    · rw [List.getElem_append_left hi, List.set_append_left _ _ hi, List.dropLast_concat]
      have hset : (init.set i z).Perm (z :: init.eraseIdx i) := List.set_perm_cons_eraseIdx hi z
      have hget : (init[i] :: init.eraseIdx i).Perm init := List.getElem_cons_eraseIdx_perm hi
      calc (init ++ [z]).Perm (z :: init) := List.perm_append_singleton z init
        _ |>.Perm (z :: init[i] :: init.eraseIdx i) := hget.symm.cons z
        _ |>.Perm (init[i] :: z :: init.eraseIdx i) := List.Perm.swap _ _ _
        _ |>.Perm (init[i] :: init.set i z) := hset.symm.cons _
    · have hlast : i = init.length := by omega
      subst hlast
      rw [List.getElem_concat_length rfl, List.set_append_right _ _ hi, Nat.sub_self,
        List.set_cons_zero, List.dropLast_concat]
      exact List.perm_append_singleton z init

theorem minAt_lt {key : ℕ → ℕ} {l : List ℕ} {i : ℕ} (h : minAt key l = some i) :
    i < l.length := by
  induction l generalizing i with
  | nil => cases h
  | cons b bs ih =>
      unfold minAt at h
      split at h
      · cases h
        exact Nat.succ_pos _
      next j hj =>
        split at h
        · cases h
          exact Nat.succ_pos _
        · cases h
          exact Nat.succ_lt_succ (ih hj)

theorem maxAt_lt {key : ℕ → ℕ} {l : List ℕ} {i : ℕ} (h : maxAt key l = some i) :
    i < l.length := by
  induction l generalizing i with
  | nil => cases h
  | cons b bs ih =>
      unfold maxAt at h
      split at h
      · cases h
        exact Nat.succ_pos _
      next j hj =>
        split at h
        · cases h
          exact Nat.succ_pos _
        · cases h
          exact Nat.succ_lt_succ (ih hj)

/-- A part of a list by its two ends. -/
def slice {α : Type} (l : List α) (a b : ℕ) : List α := (l.take b).drop a

theorem slice_slice {α : Type} (l : List α) {a b c d : ℕ} (h : a + d ≤ b) :
    slice (slice l a b) c d = slice l (a + c) (a + d) := by
  unfold slice
  rw [List.take_drop, List.take_take, Nat.min_eq_left h, List.drop_drop]

theorem slice_append {α : Type} (l : List α) {a b c : ℕ} (hab : a ≤ b) (hbc : b ≤ c) :
    slice l a b ++ slice l b c = slice l a c := by
  unfold slice
  rw [List.drop_take, List.drop_take, List.drop_take]
  have hac : c - a = (b - a) + (c - b) := by omega
  have hb : l.drop b = (l.drop a).drop (b - a) := by
    rw [List.drop_drop]
    congr 1
    omega
  rw [hac, hb, List.take_add]

theorem slice_append_left {α : Type} {l : List α} (l' : List α) {a b : ℕ} (h : b ≤ l.length) :
    slice (l ++ l') a b = slice l a b := by
  unfold slice
  rw [List.take_append_of_le_length h]

theorem slice_end {α : Type} (l l' : List α) : slice (l ++ l') l.length (l ++ l').length = l' := by
  unfold slice
  rw [List.take_length, List.drop_left]

theorem slice_empty {α : Type} (l : List α) {a b : ℕ} (h : b ≤ a) : slice l a b = [] := by
  unfold slice
  exact List.drop_eq_nil_of_le (Nat.le_trans (List.length_take_le b l) h)

/-- What the pieces are charged together. -/
def chargeSum (l : List Seg) : ℕ := (l.map (·.charge)).sum

/-- What the buffers could hold together. -/
def capacitySum (m : Heap) (l : List ℕ) : ℕ := (l.map m.capacity).sum

theorem chargeSum_perm {l l' : List Seg} (h : l.Perm l') : chargeSum l = chargeSum l' :=
  (h.map _).sum_eq

theorem chargeSum_cons (s : Seg) (l : List Seg) : chargeSum (s :: l) = s.charge + chargeSum l :=
  List.sum_cons

theorem chargeSum_append (l l' : List Seg) : chargeSum (l ++ l') = chargeSum l + chargeSum l' := by
  unfold chargeSum
  rw [List.map_append, List.sum_append]

theorem capacitySum_perm {m : Heap} {l l' : List ℕ} (h : l.Perm l') :
    capacitySum m l = capacitySum m l' :=
  (h.map _).sum_eq

theorem capacitySum_cons (m : Heap) (b : ℕ) (l : List ℕ) :
    capacitySum m (b :: l) = m.capacity b + capacitySum m l :=
  List.sum_cons

/-- Pieces that follow one another in the stream. -/
def Chained : ℕ → List Seg → ℕ → Prop
  | a, [], b => a = b
  | a, s :: q, b => s.start = a ∧ s.start ≤ s.stop ∧ Chained s.stop q b

/-- What the pieces that are held have to do with the buffers and with the stream. -/
structure Owns (P : Seg → Prop) (spare shared : List ℕ) (m : Heap) (handles : ℕ)
    (stream : List UInt8) : Prop where
  fresh : ∀ s, P s → s.handle < handles
  sole : ∀ s, P s → s.owned → s.data ∉ shared ∧ ∀ t, P t → t.data = s.data → t.handle = s.handle
  bytes : ∀ s, P s → s.bytes m = slice stream s.start s.stop ∧ s.stop ≤ stream.length ∧ s.lo ≤ s.hi
  nodup : spare.Nodup
  parked : ∀ b ∈ spare, b ∉ shared ∧ ∀ t, P t → t.data ≠ b

theorem Owns.mono {P P' : Seg → Prop} {spare spare' shared : List ℕ} {m : Heap} {handles : ℕ}
    {stream : List UInt8} (h : Owns P spare shared m handles stream) (hP : ∀ s, P' s → P s)
    (hspare : spare'.Subperm spare) : Owns P' spare' shared m handles stream where
  fresh := fun s hs => h.fresh s (hP s hs)
  sole := fun s hs ho =>
    ⟨(h.sole s (hP s hs) ho).1, fun t ht => (h.sole s (hP s hs) ho).2 t (hP t ht)⟩
  bytes := fun s hs => h.bytes s (hP s hs)
  nodup := by
    obtain ⟨l, hperm, hsub⟩ := hspare
    exact hperm.nodup_iff.1 (h.nodup.sublist hsub)
  parked := fun b hb =>
    ⟨(h.parked b (hspare.subset hb)).1, fun t ht =>
      (h.parked b (hspare.subset hb)).2 t (hP t ht)⟩

theorem Seg.bytes_write {m : Heap} {s : Seg} {buf capacity : ℕ} {b : List UInt8}
    (h : s.data ≠ buf) : s.bytes (m.write buf b capacity) = s.bytes m := by
  unfold Seg.bytes Heap.write
  dsimp only
  rw [Function.update_of_ne h]

/-- A buffer nobody holds can be written. -/
theorem Owns.write {P : Seg → Prop} {spare shared : List ℕ} {m : Heap} {handles : ℕ}
    {stream : List UInt8} (h : Owns P spare shared m handles stream) {buf : ℕ}
    (hfree : ∀ s, P s → s.data ≠ buf) (b : List UInt8) (capacity : ℕ) :
    Owns P spare shared (m.write buf b capacity) handles stream where
  fresh := h.fresh
  sole := h.sole
  bytes := fun s hs => by
    rw [Seg.bytes_write (hfree s hs)]
    exact h.bytes s hs
  nodup := h.nodup
  parked := h.parked

theorem capacitySum_write {m : Heap} {spare : List ℕ} {buf capacity : ℕ} {b : List UInt8}
    (h : buf ∉ spare) : capacitySum (m.write buf b capacity) spare = capacitySum m spare := by
  unfold capacitySum Heap.write
  dsimp only
  refine congrArg List.sum (List.map_congr_left fun c hc => Function.update_of_ne ?_ _ _)
  rintro rfl
  exact h hc

theorem Chained.le {a b : ℕ} {q : List Seg} (h : Chained a q b) : a ≤ b := by
  induction q generalizing a with
  | nil => exact Nat.le_of_eq h
  | cons s q ih =>
      obtain ⟨rfl, hle, hrest⟩ := h
      exact Nat.le_trans hle (ih hrest)

theorem Chained.snoc {a b : ℕ} {q : List Seg} {s : Seg} (h : Chained a q b) (hs : s.start = b) :
    Chained a (q ++ [s]) s.stop := by
  induction q generalizing a with
  | nil => exact ⟨hs.trans h.symm, Nat.le_add_right _ _, rfl⟩
  | cons t q ih => exact ⟨h.1, h.2.1, ih h.2.2⟩

namespace World

/-- The queue's budget is one of these, and what is parked fits one of them or is one buffer. -/
def Budgeted (budgets : List (ℕ × ℕ)) (sq : SegQueue) : Prop :=
  (sq.parkRoom, sq.parkSlots) ∈ budgets ∧
    (sq.spare.length ≤ 1 ∨ ∃ b ∈ budgets, sq.spare.length ≤ b.2 ∧ sq.spareBytes ≤ b.1)

/-- What holds between any two steps, and in the middle of one with some pieces in hand. -/
structure Sound (budgets : List (ℕ × ℕ)) (w : World) (hand : List Seg) : Prop where
  held : w.queue.held = chargeSum (hand ++ (w.queue.q ++ w.queue.lent)) + w.queue.spareBytes
  spareBytes : w.queue.spareBytes = capacitySum w.heap w.queue.spare
  within : Budgeted budgets w.queue
  owns : Owns (fun s => s ∈ hand ++ w.segs) w.queue.spare w.shared w.heap w.handles w.stream
  base_le : w.queue.base ≤ w.queue.stop
  chain : ∃ a ≤ w.queue.base, Chained a w.queue.q w.queue.stop
  stop_eq : w.queue.stop = w.stream.length

variable {w : World} {budgets : List (ℕ × ℕ)}

theorem Sound.dropClaims {hand : List Seg} (h : Sound budgets w hand) (ks : List ℕ) :
    Sound budgets (w.dropClaims ks) hand where
  held := h.held
  spareBytes := h.spareBytes
  within := h.within
  owns := by
    refine h.owns.mono (fun s hs => ?_) (List.Subperm.refl _)
    have hsub : ∀ (ks : List ℕ) (l : List Seg), ks.foldl List.eraseIdx l ⊆ l := by
      intro ks
      induction ks with
      | nil => exact fun l => List.Subset.refl l
      | cons k ks ih => exact fun l => List.Subset.trans (ih _) List.eraseIdx_subset
    rcases List.mem_append.1 hs with hs | hs
    · exact List.mem_append_left _ hs
    · rcases List.mem_append.1 hs with hs | hs
      · exact List.mem_append_right _ (List.mem_append_left _ hs)
      · exact List.mem_append_right _ (List.mem_append_right _ (hsub ks _ hs))
  base_le := h.base_le
  chain := h.chain
  stop_eq := h.stop_eq

theorem Sound.look {hand : List Seg} (h : Sound budgets w hand) : Sound budgets w.look hand :=
  have h := h.dropClaims (w.later.headD [])
  ⟨h.held, h.spareBytes, h.within, h.owns, h.base_le, h.chain, h.stop_eq⟩

/-- A buffer that nobody holds joins the spare ones that are kept. -/
theorem Sound.parked (h : Sound budgets w []) {buf : ℕ} (hfree : w.Free buf) {spare : List ℕ}
    (hspare : spare.Subperm w.queue.spare)
    (hwithin : spare = [] ∨ spare.length + 1 ≤ w.queue.parkSlots ∧
      capacitySum w.heap spare + w.heap.capacity buf ≤ w.queue.parkRoom) :
    Sound budgets { w with
      heap := w.heap.write buf [] (w.heap.capacity buf)
      queue := { w.queue with
        spare := spare ++ [buf]
        spareBytes := capacitySum w.heap spare + w.heap.capacity buf
        held := chargeSum (w.queue.q ++ w.queue.lent) + capacitySum w.heap spare +
          w.heap.capacity buf } } [] where
  held := Nat.add_assoc _ _ _
  spareBytes := by
    have hbuf : buf ∉ spare := fun hb => hfree.2.1 (hspare.subset hb)
    change _ = capacitySum _ (spare ++ [buf])
    rw [capacitySum_perm (List.perm_append_singleton buf spare), capacitySum_cons,
      capacitySum_write hbuf]
    unfold Heap.write
    dsimp only
    rw [Function.update_self, Nat.add_comm]
  within := by
    refine ⟨h.within.1, ?_⟩
    change (spare ++ [buf]).length ≤ 1 ∨ ∃ b ∈ budgets, (spare ++ [buf]).length ≤ b.2 ∧ _
    rw [List.length_append, List.length_singleton]
    rcases hwithin with rfl | hkeep
    · exact Or.inl (Nat.le_refl _)
    · exact Or.inr ⟨_, h.within.1, hkeep⟩
  owns := by
    have hsegs : ∀ s, s ∈ [] ++ w.segs → s.data ≠ buf := fun s hs => hfree.2.2 s hs
    have hkept := (h.owns.mono (fun s hs => hs) hspare).write hsegs [] (w.heap.capacity buf)
    refine ⟨hkept.fresh, hkept.sole, hkept.bytes, ?_, fun b hb => ?_⟩
    · exact List.nodup_append.2 ⟨hkept.nodup, List.nodup_singleton _, fun a ha b hb => by
        rw [List.mem_singleton.1 hb]
        rintro rfl
        exact hfree.2.1 (hspare.subset ha)⟩
    · rcases List.mem_append.1 hb with hb | hb
      · exact hkept.parked b hb
      · rw [List.mem_singleton.1 hb]
        exact ⟨hfree.1, hsegs⟩
  base_le := h.base_le
  chain := h.chain
  stop_eq := h.stop_eq

theorem Sound.held_eq (h : Sound budgets w []) : w.queue.held =
    chargeSum (w.queue.q ++ w.queue.lent) + capacitySum w.heap w.queue.spare := by
  rw [h.held, h.spareBytes]
  rfl

theorem Sound.park (h : Sound budgets w []) {buf : ℕ} (hfree : w.Free buf) :
    ∃ w', w.park buf = some w' ∧ Sound budgets w' [] ∧ w'.queue.q = w.queue.q := by
  have hheld := h.held_eq
  have hbytes := h.spareBytes
  unfold World.park
  dsimp only
  split
  · exact ⟨w, rfl, h, rfl⟩
  · split
    next hfull =>
      split
      · exact ⟨w, rfl, h, rfl⟩
      next index hmin =>
        have hlt := minAt_lt hmin
        obtain ⟨spare, hswap, hperm⟩ := swapRemove_of_lt hlt
        have hget : w.queue.spare.getD index 0 = w.queue.spare[index] :=
          by
          rw [List.getD_eq_getElem?_getD, List.getElem?_eq_getElem hlt, Option.getD_some]
        have hsum := capacitySum_perm (m := w.heap) hperm
        rw [capacitySum_cons] at hsum
        rw [hget]
        split
        · exact ⟨w, rfl, h, rfl⟩
        next hslots =>
          rw [checkedSub_of_le (by omega), some_bind]
          split
          · exact ⟨w, rfl, h, rfl⟩
          next hroom =>
            rw [hswap, some_bind, checkedSub_of_le (by omega)]
            have hlen := hperm.length_eq
            rw [List.length_cons] at hlen
            have hleft : w.queue.spareBytes - w.heap.capacity w.queue.spare[index] =
                capacitySum w.heap spare := by omega
            have hrest : w.queue.held - w.heap.capacity w.queue.spare[index] =
                chargeSum (w.queue.q ++ w.queue.lent) + capacitySum w.heap spare := by omega
            rw [hleft] at hroom ⊢
            rw [hrest]
            refine ⟨_, rfl, h.parked hfree ?_ (Or.inr ⟨by omega, by omega⟩), rfl⟩
            exact (List.sublist_cons_self _ spare).subperm.trans hperm.symm.subperm
    next hroom =>
      rw [hheld, hbytes]
      refine ⟨_, rfl, h.parked hfree (List.Subperm.refl _) ?_, rfl⟩
      by_cases hnil : w.queue.spare = []
      · exact Or.inl hnil
      · have hkeep := not_or.1 fun hor => hroom ⟨hnil, hor⟩
        rw [hbytes] at hkeep
        exact Or.inr ⟨by omega, by omega⟩

theorem count_eq_zero {handle : ℕ} (h : w.count handle = 0) : ∀ s ∈ w.segs, s.handle ≠ handle :=
  fun s hs heq => List.countP_eq_zero.1 h s hs (decide_eq_true heq)

/-- A piece that leaves both lists gives back its charge, and its buffer where nothing else
holds it. -/
theorem Sound.giveBack {seg : Seg} (h : Sound budgets w [seg]) :
    ∃ w', w.giveBack seg = some w' ∧ Sound budgets w' [] ∧ w'.queue.q = w.queue.q := by
  have hheld := h.held
  rw [List.singleton_append, chargeSum_cons] at hheld
  have hrest : Sound budgets
      { w with queue := { w.queue with held := w.queue.held - seg.charge } } [] := by
    refine ⟨?_, h.spareBytes, h.within, ?_, h.base_le, h.chain, h.stop_eq⟩
    · change w.queue.held - seg.charge = chargeSum (w.queue.q ++ w.queue.lent) + w.queue.spareBytes
      omega
    · exact h.owns.mono (fun s hs => List.mem_cons_of_mem _ hs) (List.Subperm.refl _)
  unfold World.giveBack
  rw [checkedSub_of_le (by omega), some_bind]
  dsimp only
  split
  · exact ⟨_, rfl, hrest, rfl⟩
  next howned =>
    split
    · exact ⟨_, rfl, hrest, rfl⟩
    next hcount =>
      split
      · exact ⟨_, rfl, hrest, rfl⟩
      · have hmem : seg ∈ [seg] ++ w.segs := List.mem_cons_self
        have halone := count_eq_zero (w := { w with queue := { w.queue with
          held := w.queue.held - seg.charge } })
          (Nat.add_left_cancel (not_not.1 hcount))
        obtain ⟨hshared, hsole⟩ := h.owns.sole seg hmem (Bool.not_eq_false _ ▸ howned)
        refine hrest.park ⟨hshared, fun hb => (h.owns.parked _ hb).2 seg hmem rfl,
          fun s hs hdata => halone s hs ?_⟩
        exact hsole s (List.mem_cons_of_mem _ hs) hdata

theorem Sound.release {seg : Seg} (h : Sound budgets w [seg]) :
    ∃ w', w.release seg = some w' ∧ Sound budgets w' [] ∧ w'.queue.q = w.queue.q := by
  have h := h.look
  unfold World.release
  dsimp only
  split
  · refine ⟨_, rfl, ⟨?_, h.spareBytes, h.within, ?_, h.base_le, h.chain, h.stop_eq⟩,
      rfl⟩
    · rw [h.held]
      change chargeSum ([seg] ++ (w.look.queue.q ++ w.look.queue.lent)) + w.look.queue.spareBytes =
        chargeSum ([] ++ (w.look.queue.q ++ (w.look.queue.lent ++ [seg]))) + _
      rw [List.nil_append]
      exact congrArg (· + w.look.queue.spareBytes)
        (chargeSum_perm (List.perm_append_comm.trans (by rw [List.append_assoc])))
    · refine h.owns.mono (fun s hs => ?_) (List.Subperm.refl _)
      have hs : s ∈ w.look.queue.q ++ (w.look.queue.lent ++ [seg]) ++ w.look.claims := hs
      change s ∈ [seg] ++ (w.look.queue.q ++ w.look.queue.lent ++ w.look.claims)
      simp only [List.mem_append] at hs ⊢
      tauto
  · exact h.giveBack

theorem Sound.sweepLoop {n i : ℕ} (h : Sound budgets w []) :
    ∃ w', World.sweepLoop n i w = some w' ∧ Sound budgets w' [] := by
  induction n generalizing i w with
  | zero => exact ⟨w, rfl, h⟩
  | succ n ih =>
      have h := h.look
      rw [World.sweepLoop]
      dsimp only
      split
      · exact ⟨_, rfl, h⟩
      next seg hseg =>
        split
        · obtain ⟨hlt, rfl⟩ := List.getElem?_eq_some_iff.1 hseg
          obtain ⟨lent, hswap, hperm⟩ := swapRemove_of_lt hlt
          rw [hswap, some_bind]
          have hhand : Sound budgets { w.look with queue := { w.look.queue with lent } }
              [w.look.queue.lent[i]] := by
            refine ⟨?_, h.spareBytes, h.within, ?_, h.base_le, h.chain, h.stop_eq⟩
            · rw [h.held]
              change chargeSum ([] ++ (w.look.queue.q ++ w.look.queue.lent)) + _ =
                chargeSum ([w.look.queue.lent[i]] ++ (w.look.queue.q ++ lent)) + _
              rw [List.nil_append, List.singleton_append]
              exact congrArg (· + _) (chargeSum_perm ((hperm.append_left _).trans
                List.perm_middle))
            · refine h.owns.mono (fun s hs => ?_) (List.Subperm.refl _)
              have hs : s ∈ [w.look.queue.lent[i]] ++ (w.look.queue.q ++ lent ++ w.look.claims) :=
                hs
              change s ∈ [] ++ (w.look.queue.q ++ w.look.queue.lent ++ w.look.claims)
              simp only [List.mem_append, hperm.mem_iff, List.mem_cons, List.not_mem_nil, or_false,
                false_or] at hs ⊢
              tauto
          obtain ⟨w', hgive, hw', -⟩ := hhand.giveBack
          rw [hgive, some_bind]
          exact ih hw'
        · exact ih h

theorem Sound.sweep (h : Sound budgets w []) :
    ∃ w', w.sweep = some w' ∧ Sound budgets w' [] := h.sweepLoop

theorem Sound.retainLoop (cursor : ℕ) {n : ℕ} (h : Sound budgets w []) (hn : w.queue.q.length ≤ n) :
    ∃ w', World.retainLoop cursor n w = some w' ∧ Sound budgets w' [] ∧
      ∀ front ∈ w'.queue.q.head?, cursor < front.stop := by
  induction n generalizing w with
  | zero =>
      refine ⟨w, rfl, h, fun front hf => ?_⟩
      rw [List.length_eq_zero_iff.1 (Nat.le_zero.1 hn)] at hf
      cases hf
  | succ n ih =>
      rw [World.retainLoop]
      split
      next hq =>
        refine ⟨w, rfl, h, fun front hf => ?_⟩
        rw [hq] at hf
        cases hf
      next front q hq =>
        split
        next hlt =>
          refine ⟨w, rfl, h, fun f hf => ?_⟩
          rw [hq] at hf
          cases hf
          exact hlt
        · obtain ⟨a, -, hchain⟩ := h.chain
          rw [hq] at hchain
          have hhand : Sound budgets { w with queue := { w.queue with q, base := front.stop } }
              [front] := by
            refine ⟨?_, h.spareBytes, h.within, ?_, hchain.2.2.le, ⟨_, Nat.le_refl _,
              hchain.2.2⟩, h.stop_eq⟩
            · rw [h.held, hq]
              rfl
            · refine h.owns.mono (fun s hs => ?_) (List.Subperm.refl _)
              have hs : s ∈ [front] ++ (q ++ w.queue.lent ++ w.claims) := hs
              change s ∈ w.queue.q ++ w.queue.lent ++ w.claims
              rw [hq]
              exact hs
          obtain ⟨w', hrelease, hw', hsame⟩ := hhand.release
          rw [hrelease, some_bind]
          apply ih hw'
          rw [hsame]
          rw [hq] at hn
          exact Nat.le_of_succ_le_succ hn

theorem Sound.retainFrom {cursor : ℕ} (h : Sound budgets w []) :
    ∃ w', w.retainFrom cursor = some w' ∧ Sound budgets w' [] := by
  obtain ⟨w', hloop, h, hfront⟩ := h.retainLoop cursor (Nat.le_refl _)
  unfold World.retainFrom
  rw [hloop, some_bind]
  obtain ⟨a, ha, hchain⟩ := h.chain
  refine Sound.sweep (w := { w' with queue := { w'.queue with base := _ } })
    ⟨h.held, h.spareBytes, h.within, h.owns, ?_, ?_, h.stop_eq⟩
  · change _ ≤ w'.queue.stop
    split
    next front q hq =>
      rw [hq] at hchain hfront
      split
      · exact Nat.le_trans (Nat.le_of_lt (hfront front rfl)) hchain.2.2.le
      · exact h.base_le
    · exact h.base_le
  · refine ⟨a, ?_, hchain⟩
    split
    next front q hq =>
      rw [hq] at hchain
      split
      next hlt => exact hchain.1 ▸ Nat.le_of_lt hlt
      · exact ha
    · exact ha

/-- Every piece in the queue is at its place in the chain. -/
theorem Sound.pushed (h : Sound budgets w []) {data lo hi charge : ℕ} {owned : Bool}
    (hlo : lo ≤ hi) (hhi : hi ≤ (w.heap.bytes data).length) (hspare : data ∉ w.queue.spare)
    (hown : owned = true → data ∉ w.shared ∧ ∀ t ∈ w.segs, t.data ≠ data)
    (hsole : ∀ s ∈ w.segs, s.owned → s.data ≠ data) :
    Sound budgets (w.push data lo hi charge owned) [] := by
  unfold World.push
  split
  · exact h
  next hlt =>
    set seg : Seg := ⟨w.handles, data, lo, hi, w.queue.stop, charge, owned⟩ with hseg
    have hbytes : (slice (w.heap.bytes data) lo hi).length = hi - lo := by
      unfold slice
      rw [List.length_drop, List.length_take, Nat.min_eq_left hhi]
    have hmem : ∀ s, s ∈ [] ++ (w.queue.q ++ [seg] ++ w.queue.lent ++ w.claims) →
        s = seg ∨ s ∈ [] ++ w.segs := by
      intro s hs
      unfold World.segs
      simp only [List.mem_append, List.mem_cons, List.not_mem_nil, or_false, false_or] at hs ⊢
      tauto
    refine ⟨?_, h.spareBytes, h.within, ⟨?_, ?_, ?_, h.owns.nodup, ?_⟩, ?_, ?_, ?_⟩
    · change w.queue.held + charge =
        chargeSum ([] ++ (w.queue.q ++ [seg] ++ w.queue.lent)) + w.queue.spareBytes
      have hperm : (w.queue.q ++ [seg] ++ w.queue.lent).Perm
          (seg :: (w.queue.q ++ w.queue.lent)) := by
        rw [List.append_assoc]
        exact List.perm_middle
      rw [List.nil_append, chargeSum_perm hperm, chargeSum_cons, h.held, List.nil_append]
      change _ = charge + _ + _
      omega
    · intro s hs
      change s.handle < w.handles + 1
      rcases hmem s hs with rfl | hs
      · exact Nat.lt_succ_self _
      · exact Nat.lt_succ_of_lt (h.owns.fresh s hs)
    · intro s hs ho
      rcases hmem s hs with rfl | hs
      · refine ⟨(hown ho).1, fun t ht hdata => ?_⟩
        rcases hmem t ht with rfl | ht
        · rfl
        · exact absurd hdata ((hown ho).2 t ht)
      · refine ⟨(h.owns.sole s hs ho).1, fun t ht hdata => ?_⟩
        rcases hmem t ht with rfl | ht
        · exact absurd hdata.symm (hsole s hs ho)
        · exact (h.owns.sole s hs ho).2 t ht hdata
    · intro s hs
      have hstop := h.stop_eq
      rcases hmem s hs with rfl | hs
      · have hend : seg.stop = (w.stream ++ slice (w.heap.bytes data) lo hi).length := by
          rw [List.length_append, hbytes, ← hstop]
          rfl
        refine ⟨?_, Nat.le_of_eq hend, hlo⟩
        change slice (w.heap.bytes data) lo hi = slice (w.stream ++ _) w.queue.stop seg.stop
        rw [hend, hstop]
        exact (slice_end w.stream _).symm
      · obtain ⟨hb, hle, hrange⟩ := h.owns.bytes s hs
        refine ⟨?_, ?_, hrange⟩
        · rw [hb]
          exact (slice_append_left _ hle).symm
        · change _ ≤ (w.stream ++ _).length
          rw [List.length_append]
          exact Nat.le_add_right_of_le hle
    · intro b hb
      refine ⟨(h.owns.parked b hb).1, fun t ht => ?_⟩
      rcases hmem t ht with rfl | ht
      · rintro rfl
        exact hspare hb
      · exact (h.owns.parked b hb).2 t ht
    · exact Nat.le_add_right_of_le h.base_le
    · obtain ⟨a, ha, hchain⟩ := h.chain
      refine ⟨a, ha, ?_⟩
      exact hchain.snoc rfl
    · change w.queue.stop + (hi - lo) = (w.stream ++ slice (w.heap.bytes data) lo hi).length
      rw [List.length_append, hbytes, h.stop_eq]

end World

section Claim
variable {m : Heap} {stream : List UInt8} {start stop : ℕ}

/-- A part of a piece holds its part of the stream. -/
theorem Seg.part_bytes {s : Seg} (hb : s.bytes m = slice stream s.start s.stop) (hs : s.lo ≤ s.hi)
    {a b : ℕ} (hab : a ≤ b) (hbs : s.start + b ≤ s.stop) (t : Seg) (hd : t.data = s.data)
    (hlo : t.lo = s.lo + a) (hhi : t.hi = s.lo + b) (hst : t.start = s.start + a) :
    t.bytes m = slice stream t.start t.stop ∧ t.lo ≤ t.hi ∧ t.stop = s.start + b := by
  have hstop : t.stop = s.start + b := by
    unfold Seg.stop
    omega
  have hle : s.lo + b ≤ s.hi := by
    unfold Seg.stop at hbs
    omega
  refine ⟨?_, by omega, hstop⟩
  calc t.bytes m = slice (m.bytes s.data) (s.lo + a) (s.lo + b) := by
        rw [← hd, ← hlo, ← hhi]
        rfl
    _ = slice (s.bytes m) a b := (slice_slice _ hle).symm
    _ = slice stream (s.start + a) (s.start + b) := by rw [hb, slice_slice _ hbs]
    _ = slice stream t.start t.stop := by rw [hst, hstop]

/-- Each piece of a claim is a part of a piece in the queue. -/
theorem claimLoop_mem {q : List Seg} (hstart : start ≤ stop)
    (hq : ∀ s ∈ q, s.bytes m = slice stream s.start s.stop ∧ s.lo ≤ s.hi ∧ start ≤ s.stop) :
    ∀ t ∈ SegQueue.claimLoop start stop q, t.owned = false ∧
      t.bytes m = slice stream t.start t.stop ∧ t.lo ≤ t.hi ∧ ∃ s ∈ q, t.handle = s.handle ∧ t.data = s.data ∧ t.stop ≤ s.stop := by
  induction q with
  | nil => exact fun t ht => absurd ht List.not_mem_nil
  | cons s q ih =>
      intro t ht
      rw [SegQueue.claimLoop] at ht
      split at ht
      · exact absurd ht List.not_mem_nil
      next hlt =>
        obtain ⟨hb, hs, hle⟩ := hq s List.mem_cons_self
        have hss : s.start ≤ s.stop := Nat.le_add_right _ _
        rcases List.mem_cons.1 ht with rfl | ht
        · have hpart := Seg.part_bytes hb hs (a := max start s.start - s.start)
            (b := min stop s.stop - s.start) (by omega) (by omega)
            { s with
              lo := s.lo + (max start s.start - s.start)
              hi := s.lo + (min stop s.stop - s.start)
              start := s.start + (max start s.start - s.start), charge := 0, owned := false }
            rfl rfl rfl rfl
          refine ⟨rfl, hpart.1, hpart.2.1, s, List.mem_cons_self, rfl, rfl, ?_⟩
          rw [hpart.2.2]
          omega
        · obtain ⟨ho, hbt, hr, u, hu, hsame⟩ :=
            ih (fun s hs => hq s (List.mem_cons_of_mem _ hs)) t ht
          exact ⟨ho, hbt, hr, u, List.mem_cons_of_mem _ hu, hsame⟩

/-- The pieces of a claim that starts in the first of the pieces are the bytes of its range. -/
theorem claimLoop_bytes {a b : ℕ} {q : List Seg} (hchain : Chained a q b)
    (hq : ∀ s ∈ q, s.bytes m = slice stream s.start s.stop ∧ s.lo ≤ s.hi ∧ start ≤ s.stop)
    (hstart : start ≤ stop) (hstop : stop ≤ b) :
    ((SegQueue.claimLoop start stop q).map (Seg.bytes m)).flatten =
      slice stream (max start a) stop := by
  induction q generalizing a with
  | nil =>
      have hab : a = b := hchain
      exact (slice_empty stream (by omega)).symm
  | cons s q ih =>
      obtain ⟨rfl, hss, hrest⟩ := hchain
      obtain ⟨hb, hs, hle⟩ := hq s List.mem_cons_self
      rw [SegQueue.claimLoop]
      split
      · exact (slice_empty stream (by omega)).symm
      next hlt =>
        have hpart := Seg.part_bytes hb hs (a := max start s.start - s.start)
          (b := min stop s.stop - s.start) (by omega) (by omega)
          { s with
            lo := s.lo + (max start s.start - s.start)
            hi := s.lo + (min stop s.stop - s.start)
            start := s.start + (max start s.start - s.start), charge := 0, owned := false }
          rfl rfl rfl rfl
        have htail := ih hrest fun t ht => hq t (List.mem_cons_of_mem _ ht)
        rw [List.map_cons, List.flatten_cons, hpart.1, hpart.2.2, htail]
        change slice stream (s.start + (max start s.start - s.start)) _ ++ _ = _
        have hfrom : s.start + (max start s.start - s.start) = max start s.start := by omega
        have hto : s.start + (min stop s.stop - s.start) = min stop s.stop := by omega
        have hmax : max start s.stop = s.stop := by omega
        rw [hfrom, hto, hmax]
        rcases Nat.le_total stop s.stop with hend | hend
        · rw [Nat.min_eq_left hend, slice_empty stream hend, List.append_nil]
        · rw [Nat.min_eq_right hend, slice_append _ (by omega) hend]

theorem indexLoop_spec {q : List Seg} {offset n lo hi i : ℕ}
    (h : SegQueue.indexLoop q offset n lo hi = some i) :
    ∃ s, q[i]? = some s ∧ s.start ≤ offset ∧ offset < s.stop := by
  induction n generalizing lo hi with
  | zero => cases h
  | succ n ih =>
      rw [SegQueue.indexLoop] at h
      split at h
      · dsimp only at h
        split at h
        · cases h
        next s hs =>
          split at h
          · exact ih h
          · split at h
            · exact ih h
            · cases h
              exact ⟨s, hs, by omega, by omega⟩
      · cases h

theorem Chained.drop {a b : ℕ} {q : List Seg} (h : Chained a q b) (i : ℕ) :
    ∃ c, a ≤ c ∧ Chained c (q.drop i) b := by
  induction i generalizing a q with
  | zero => exact ⟨a, Nat.le_refl _, h⟩
  | succ i ih =>
      cases q with
      | nil => exact ⟨a, Nat.le_refl _, h⟩
      | cons s q =>
          obtain ⟨c, hc, hdrop⟩ := ih h.2.2
          have hstart := h.1
          have hle := h.2.1
          exact ⟨c, by omega, hdrop⟩

theorem Chained.le_stop {a b : ℕ} {q : List Seg} (h : Chained a q b) :
    ∀ s ∈ q, a ≤ s.stop := by
  induction q generalizing a with
  | nil => exact fun s hs => absurd hs List.not_mem_nil
  | cons t q ih =>
      obtain ⟨rfl, hle, hrest⟩ := h
      intro s hs
      rcases List.mem_cons.1 hs with rfl | hs
      · exact hle
      · exact Nat.le_trans hle (ih hrest s hs)

end Claim

namespace World
variable {w : World} {budgets : List (ℕ × ℕ)} {start stop : ℕ}

theorem mem_segs_of_queued {s : Seg} (h : s ∈ w.queue.q) : s ∈ [] ++ w.segs :=
  List.mem_append_right _ (List.mem_append_left _ (List.mem_append_left _ h))

/-- What a claim gives. -/
theorem Sound.claim_spec (h : Sound budgets w []) {segs : List Seg}
    (hclaim : w.queue.claim start stop = some segs) :
    (segs.map (Seg.bytes w.heap)).flatten = slice w.stream start stop ∧
      ∀ t ∈ segs, t.owned = false ∧ t.bytes w.heap = slice w.stream t.start t.stop ∧
        t.lo ≤ t.hi ∧ ∃ s ∈ w.queue.q, t.handle = s.handle ∧ t.data = s.data ∧ t.stop ≤ s.stop := by
  unfold SegQueue.claim at hclaim
  split at hclaim
  · cases hclaim
  next hrange =>
    cases hindex : w.queue.indexOf start with
    | none =>
        rw [hindex] at hclaim
        cases hclaim
    | some first =>
        rw [hindex, some_bind] at hclaim
        cases hclaim
        obtain ⟨s, hs, hle, hlt⟩ := indexLoop_spec hindex
        obtain ⟨a, -, hchain⟩ := h.chain
        obtain ⟨c, -, hdrop⟩ := hchain.drop first
        obtain ⟨hfirst, hget⟩ := List.getElem?_eq_some_iff.1 hs
        have hcons : w.queue.q.drop first = s :: w.queue.q.drop (first + 1) := by
          rw [List.drop_eq_getElem_cons hfirst, hget]
        have hq : ∀ t ∈ w.queue.q.drop first, t.bytes w.heap = slice w.stream t.start t.stop ∧
            t.lo ≤ t.hi ∧ start ≤ t.stop := by
          intro t ht
          have hmem : t ∈ [] ++ w.segs :=
            mem_segs_of_queued (List.mem_of_mem_drop ht)
          obtain ⟨hb, -, hr⟩ := h.owns.bytes t hmem
          refine ⟨hb, hr, ?_⟩
          rw [hcons] at ht hdrop
          rcases List.mem_cons.1 ht with rfl | ht
          · exact Nat.le_of_lt hlt
          · exact Nat.le_trans (Nat.le_of_lt hlt) (hdrop.2.2.le_stop t ht)
        have hc : c ≤ start := by
          rw [hcons] at hdrop
          exact hdrop.1 ▸ hle
        refine ⟨?_, fun t ht => ?_⟩
        · rw [claimLoop_bytes hdrop hq (by omega) (by omega), Nat.max_eq_left hc]
        · obtain ⟨ho, hb, hr, u, hu, hsame⟩ := claimLoop_mem (by omega) hq t ht
          exact ⟨ho, hb, hr, u, List.mem_of_mem_drop hu, hsame⟩

theorem Sound.claimed (h : Sound budgets w []) :
    Sound budgets { w with claims := w.claims ++ (w.queue.claim start stop).getD [] } [] := by
  cases hclaim : w.queue.claim start stop with
  | none =>
      rw [Option.getD_none, List.append_nil]
      exact h
  | some segs =>
      have hspec := (h.claim_spec hclaim).2
      rw [Option.getD_some]
      have hmem : ∀ s, s ∈ [] ++ ({ w with claims := w.claims ++ segs } : World).segs →
          s ∈ [] ++ w.segs ∨ s ∈ segs := by
        intro s hs
        unfold World.segs at hs ⊢
        simp only [List.mem_append, List.not_mem_nil, false_or] at hs ⊢
        tauto
      -- whatever a claimed piece is, a piece in the queue has its handle and its buffer
      have hlike : ∀ s, s ∈ [] ++ ({ w with claims := w.claims ++ segs } : World).segs →
          ∃ u ∈ [] ++ w.segs, s.handle = u.handle ∧ s.data = u.data := by
        intro s hs
        rcases hmem s hs with hs | hs
        · exact ⟨s, hs, rfl, rfl⟩
        · obtain ⟨-, -, -, u, hu, hh, hd, -⟩ := hspec s hs
          exact ⟨u, mem_segs_of_queued hu, hh, hd⟩
      refine ⟨h.held, h.spareBytes, h.within, ⟨?_, ?_, ?_, h.owns.nodup, ?_⟩, h.base_le, h.chain,
        h.stop_eq⟩
      · intro s hs
        obtain ⟨u, hu, hh, -⟩ := hlike s hs
        exact hh ▸ h.owns.fresh u hu
      · intro s hs ho
        rcases hmem s hs with hs | hs
        · refine ⟨(h.owns.sole s hs ho).1, fun t ht hd => ?_⟩
          obtain ⟨u, hu, hh, hdu⟩ := hlike t ht
          exact hh.trans ((h.owns.sole s hs ho).2 u hu (hdu.symm.trans hd))
        · rw [(hspec s hs).1] at ho
          cases ho
      · intro s hs
        rcases hmem s hs with hs | hs
        · exact h.owns.bytes s hs
        · obtain ⟨-, hb, hr, u, hu, -, -, hle⟩ := hspec s hs
          have hu : u ∈ [] ++ w.segs := mem_segs_of_queued hu
          exact ⟨hb, Nat.le_trans hle (h.owns.bytes u hu).2.1, hr⟩
      · intro b hb
        refine ⟨(h.owns.parked b hb).1, fun t ht => ?_⟩
        obtain ⟨u, hu, -, hd⟩ := hlike t ht
        exact hd ▸ (h.owns.parked b hb).2 u hu

end World
end LzmaTurbo.Mt
