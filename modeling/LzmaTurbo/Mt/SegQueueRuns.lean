import LzmaTurbo.Mt.SegQueueLaws

/-!
# The queue over whole runs
-/
namespace LzmaTurbo.Mt.World

variable {w : World} {budgets : List (ℕ × ℕ)}

/-- Some spare buffers leave, and their capacities with them. -/
theorem Sound.unparked (h : Sound budgets w []) (gone : List ℕ) {spare : List ℕ}
    (hperm : w.queue.spare.Perm (gone ++ spare)) :
    capacitySum w.heap gone ≤ w.queue.held ∧ capacitySum w.heap gone ≤ w.queue.spareBytes ∧
      Sound budgets { w with queue := { w.queue with
        spare
        spareBytes := w.queue.spareBytes - capacitySum w.heap gone
        held := w.queue.held - capacitySum w.heap gone } } [] := by
  have hsum : w.queue.spareBytes = capacitySum w.heap gone + capacitySum w.heap spare := by
    rw [h.spareBytes, capacitySum_perm hperm]
    unfold capacitySum
    rw [List.map_append, List.sum_append]
  have hlen := hperm.length_eq
  rw [List.length_append] at hlen
  have hheld := h.held
  rw [List.nil_append] at hheld
  refine ⟨by omega, by omega, ?_, ?_, ?_, ?_, h.base_le, h.chain, h.stop_eq⟩
  · change w.queue.held - _ = chargeSum (w.queue.q ++ w.queue.lent) + (w.queue.spareBytes - _)
    omega
  · change w.queue.spareBytes - _ = capacitySum w.heap spare
    omega
  · obtain ⟨hnow, hfits⟩ := h.within
    refine ⟨hnow, ?_⟩
    change spare.length ≤ 1 ∨ ∃ b ∈ budgets, spare.length ≤ b.2 ∧ w.queue.spareBytes - _ ≤ b.1
    rcases hfits with hone | ⟨b, hb, hslots, hroom⟩
    · exact Or.inl (by omega)
    · exact Or.inr ⟨b, hb, by omega, by omega⟩
  · exact h.owns.mono (fun s hs => hs)
      ((List.sublist_append_right gone spare).subperm.trans hperm.symm.subperm)

theorem Sound.takeSpare (h : Sound budgets w []) :
    ∃ taken queue, w.queue.takeSpare w.heap.capacity = some (taken, queue) ∧
      Sound budgets { w with queue } [] ∧ ∀ buf ∈ taken, ({ w with queue } : World).Free buf := by
  unfold SegQueue.takeSpare
  split
  · exact ⟨none, w.queue, rfl, h, fun buf hb => by cases hb⟩
  next i hmax =>
    have hlt := maxAt_lt hmax
    obtain ⟨spare, hswap, hperm⟩ := swapRemove_of_lt hlt
    obtain ⟨hheld, hbytes, hrest⟩ := h.unparked [w.queue.spare[i]] hperm
    have hone : capacitySum w.heap [w.queue.spare[i]] = w.heap.capacity w.queue.spare[i] :=
      Nat.add_zero _
    rw [hone] at hheld hbytes hrest
    rw [hswap, some_bind]
    dsimp only
    rw [checkedSub_of_le hbytes, some_bind, checkedSub_of_le hheld]
    refine ⟨_, _, rfl, hrest, fun buf hb => ?_⟩
    cases hb
    obtain ⟨hshared, hsegs⟩ := h.owns.parked _ (List.getElem_mem hlt)
    have hnodup := hperm.nodup_iff.1 h.owns.nodup
    exact ⟨hshared, (List.nodup_cons.1 hnodup).1, hsegs⟩

theorem Sound.shedSpare (h : Sound budgets w []) :
    ∃ shed queue, w.queue.shedSpare = some (shed, queue) ∧ Sound budgets { w with queue } [] := by
  obtain ⟨hheld, -, hrest⟩ := h.unparked w.queue.spare (List.Perm.of_eq (List.append_nil _).symm)
  rw [← h.spareBytes, Nat.sub_self] at hrest
  rw [← h.spareBytes] at hheld
  unfold SegQueue.shedSpare
  rw [checkedSub_of_le hheld]
  exact ⟨_, _, rfl, hrest⟩

theorem shedLoop_spec (m : Heap) (want n : ℕ) (spare : List ℕ) (shed : ℕ) :
    ∃ gone, spare.Perm (gone ++ (SegQueue.shedLoop m.capacity want n spare shed).1) ∧
      (SegQueue.shedLoop m.capacity want n spare shed).2 = shed + capacitySum m gone := by
  induction n generalizing spare shed with
  | zero => exact ⟨[], List.Perm.refl _, rfl⟩
  | succ n ih =>
      rw [SegQueue.shedLoop]
      split
      · exact ⟨[], List.Perm.refl _, rfl⟩
      · split
        · exact ⟨[], List.Perm.refl _, rfl⟩
        next buf hlast =>
          obtain ⟨gone, hperm, hsum⟩ := ih spare.dropLast (shed + m.capacity buf)
          refine ⟨buf :: gone, ?_, ?_⟩
          · have hsplit : spare.dropLast ++ [buf] = spare :=
              List.dropLast_append_getLast? buf hlast
            calc spare.Perm (buf :: spare.dropLast) := by
                  rw [← hsplit, List.dropLast_concat]
                  exact List.perm_append_singleton _ _
              _ |>.Perm (buf :: (gone ++ _)) := hperm.cons buf
          · rw [hsum, capacitySum_cons, Nat.add_assoc]

theorem Sound.shedSpareDown (h : Sound budgets w []) (want : ℕ) :
    ∃ shed queue, w.queue.shedSpareDown w.heap.capacity want = some (shed, queue) ∧
      Sound budgets { w with queue } [] := by
  obtain ⟨gone, hperm, hsum⟩ := shedLoop_spec w.heap want w.queue.spare.length w.queue.spare 0
  rw [Nat.zero_add] at hsum
  obtain ⟨hheld, hbytes, hrest⟩ := h.unparked _ hperm
  unfold SegQueue.shedSpareDown
  dsimp only
  rw [hsum, checkedSub_of_le hheld, some_bind, checkedSub_of_le hbytes]
  exact ⟨_, _, rfl, hrest⟩

theorem Sound.written (h : Sound budgets w []) {buf : ℕ} (hfree : w.Free buf) (b : List UInt8)
    (capacity : ℕ) : Sound budgets { w with heap := w.heap.write buf b capacity } [] where
  held := h.held
  spareBytes := by
    rw [h.spareBytes]
    exact (capacitySum_write hfree.2.1).symm
  within := h.within
  owns := h.owns.write (fun s hs => hfree.2.2 s hs) b capacity
  base_le := h.base_le
  chain := h.chain
  stop_eq := h.stop_eq

theorem Sound.shared (h : Sound budgets w []) {shared : List ℕ}
    (hshared : ∀ b ∈ shared, b ∈ w.shared ∨ w.Free b) : Sound budgets { w with shared } [] where
  held := h.held
  spareBytes := h.spareBytes
  within := h.within
  owns := by
    refine ⟨h.owns.fresh, fun s hs ho => ⟨fun hb => ?_, (h.owns.sole s hs ho).2⟩, h.owns.bytes,
      h.owns.nodup, fun b hb => ⟨fun hs => ?_, (h.owns.parked b hb).2⟩⟩
    · rcases hshared _ hb with hb | hb
      · exact (h.owns.sole s hs ho).1 hb
      · exact hb.2.2 s hs rfl
    · rcases hshared _ hs with hs | hs
      · exact (h.owns.parked b hb).1 hs
      · exact hs.2.1 hb
  base_le := h.base_le
  chain := h.chain
  stop_eq := h.stop_eq

theorem Sound.clear (h : Sound budgets w []) :
    Sound budgets { w with queue := w.queue.clear } [] where
  held := rfl
  spareBytes := rfl
  within := ⟨h.within.1, Or.inl (Nat.zero_le _)⟩
  owns := by
    refine h.owns.mono (fun s hs => ?_) List.nil_subperm
    have hs : s ∈ [] ++ w.claims := hs
    exact List.mem_append_right _ (List.mem_append_right _ hs)
  base_le := Nat.le_refl _
  chain := ⟨w.queue.stop, Nat.le_refl _, rfl⟩
  stop_eq := h.stop_eq

/-- What is parked already stays so under another budget. -/
theorem Sound.budgeted (h : Sound budgets w []) (room slots : ℕ) :
    Sound ((room, slots) :: budgets)
      { w with queue := w.queue.setParkBudget room slots } [] where
  held := h.held
  spareBytes := h.spareBytes
  within := by
    refine ⟨List.mem_cons_self, ?_⟩
    rcases h.within.2 with hone | ⟨b, hb, hfits⟩
    · exact Or.inl hone
    · exact Or.inr ⟨b, List.mem_cons_of_mem _ hb, hfits⟩
  owns := h.owns
  base_le := h.base_le
  chain := h.chain
  stop_eq := h.stop_eq

/-- No event takes a counter below zero, and each keeps what holds between events. -/
theorem Sound.step (h : Sound budgets w []) {e : SegEvent} (he : w.Allowed e) :
    ∃ w', w.step e = some w' ∧ Sound (e.budgets ++ budgets) w' [] := by
  cases e with
  | share buf bytes capacity =>
      refine ⟨_, rfl, Sound.shared (h.written he.1 bytes capacity) fun b hb => ?_⟩
      rcases List.mem_cons.1 hb with rfl | hb
      · exact Or.inr he.1
      · exact Or.inl hb
  | unshare buf => exact ⟨_, rfl, h.shared fun b hb => Or.inl (List.mem_of_mem_erase hb)⟩
  | pushOwned buf bytes capacity =>
      have hbytes : ((w.heap.write buf bytes capacity).bytes buf) = bytes :=
        Function.update_self ..
      refine ⟨_, rfl, (h.written he.1 bytes capacity).pushed (Nat.zero_le _) ?_ he.1.2.1
        (fun _ => ⟨he.1.1, he.1.2.2⟩) fun s hs _ => he.1.2.2 s hs⟩
      exact Nat.le_of_eq (congrArg List.length hbytes.symm)
  | pushShared buf lo hi =>
      refine ⟨_, rfl, h.pushed he.2.1 he.2.2 (fun hb => (h.owns.parked buf hb).1 he.1)
        (fun ho => by cases ho) fun s hs ho hd => ?_⟩
      exact (h.owns.sole s hs ho).1 (hd ▸ he.1)
  | claim start stop => exact ⟨_, rfl, h.claimed⟩
  | setParkBudget room slots => exact ⟨_, rfl, h.budgeted room slots⟩
  | retainFrom cursor later => exact Sound.retainFrom (w := { w with later }) ⟨h.held, h.spareBytes,
      h.within, h.owns, h.base_le, h.chain, h.stop_eq⟩
  | sweep later => exact Sound.sweep (w := { w with later }) ⟨h.held, h.spareBytes, h.within,
      h.owns, h.base_le, h.chain, h.stop_eq⟩
  | takeSpare =>
      obtain ⟨taken, queue, htake, hsound, -⟩ := h.takeSpare
      refine ⟨{ w with queue }, ?_, hsound⟩
      change (w.queue.takeSpare w.heap.capacity >>= _) = _
      rw [htake]
      rfl
  | shedSpare =>
      obtain ⟨shed, queue, hshed, hsound⟩ := h.shedSpare
      refine ⟨{ w with queue }, ?_, hsound⟩
      change (w.queue.shedSpare >>= _) = _
      rw [hshed]
      rfl
  | shedSpareDown want =>
      obtain ⟨shed, queue, hshed, hsound⟩ := h.shedSpareDown want
      refine ⟨{ w with queue }, ?_, hsound⟩
      change (w.queue.shedSpareDown w.heap.capacity want >>= _) = _
      rw [hshed]
      rfl
  | dropClaims ks => exact ⟨_, rfl, h.dropClaims ks⟩
  | clear => exact ⟨_, rfl, h.clear⟩

theorem Reachable.sound (h : Reachable budgets w) : Sound budgets w [] := by
  induction h with
  | start room slots heap =>
      refine ⟨rfl, rfl, ⟨List.mem_cons_self, Or.inl (Nat.zero_le _)⟩,
        ⟨?_, ?_, ?_, List.nodup_nil, ?_⟩, Nat.le_refl _, ⟨0, Nat.le_refl _, rfl⟩, rfl⟩
      · exact fun s hs => absurd hs List.not_mem_nil
      · exact fun s hs => absurd hs List.not_mem_nil
      · exact fun s hs => absurd hs List.not_mem_nil
      · exact fun b hb => absurd hb List.not_mem_nil
  | step e _ he hs ih =>
      obtain ⟨w', hw, hsound⟩ := ih.step he
      rw [hw] at hs
      cases hs
      exact hsound

/-- What is parked is one buffer, or fits a budget. -/
def Fits (w : World) (budget : ℕ × ℕ) : Prop :=
  w.queue.spare.length ≤ 1 ∨ w.queue.spare.length ≤ budget.2 ∧
    capacitySum w.heap w.queue.spare ≤ budget.1

theorem Sound.fits {budget : ℕ × ℕ} (h : Sound [budget] w []) :
    (w.queue.parkRoom, w.queue.parkSlots) = budget ∧ w.Fits budget := by
  obtain ⟨hnow, hfits⟩ := h.within
  refine ⟨List.mem_singleton.1 hnow, ?_⟩
  rcases hfits with hone | ⟨b, hb, hslots, hroom⟩
  · exact Or.inl hone
  · rw [List.mem_singleton.1 hb] at hslots hroom
    exact Or.inr ⟨hslots, h.spareBytes ▸ hroom⟩

/-- Only an event that sets a budget can leave more parked than the budget allows. -/
theorem Sound.step_fits (h : Sound budgets w []) {e : SegEvent} {w' : World} (he : w.Allowed e)
    (hstep : w.step e = some w') (hsame : e.budgets = [])
    (hfits : w.Fits (w.queue.parkRoom, w.queue.parkSlots)) :
    w'.Fits (w'.queue.parkRoom, w'.queue.parkSlots) := by
  have hone : Sound [(w.queue.parkRoom, w.queue.parkSlots)] w [] := by
    refine ⟨h.held, h.spareBytes, ⟨List.mem_cons_self, ?_⟩, h.owns, h.base_le, h.chain, h.stop_eq⟩
    rcases hfits with hone | ⟨hslots, hroom⟩
    · exact Or.inl hone
    · exact Or.inr ⟨_, List.mem_cons_self, hslots, h.spareBytes.symm ▸ hroom⟩
  obtain ⟨w₁, hw, hsound⟩ := hone.step he
  rw [hstep] at hw
  cases hw
  rw [hsame, List.nil_append] at hsound
  obtain ⟨hbudget, hfits⟩ := hsound.fits
  rw [hbudget]
  exact hfits

/-- However the events come, and whatever the workers let go of meanwhile: the queue's account
adds up and never runs below zero, a claim is the stream's bytes of its range and its pieces go on
being that, what is parked or handed out again is nobody's, and the budgets are kept: what is
parked fits one of those set so far, and the one in force as long as it did when that was set. -/
theorem segQueue_exact {budgets : List (ℕ × ℕ)} {w : World} (h : Reachable budgets w) :
    w.queue.held = chargeSum w.queue.q + chargeSum w.queue.lent +
      capacitySum w.heap w.queue.spare ∧
    (∀ e, w.Allowed e → (w.step e).isSome) ∧
    (∀ start stop segs, w.queue.claim start stop = some segs →
      (segs.map (Seg.bytes w.heap)).flatten = slice w.stream start stop) ∧
    (∀ s ∈ w.claims, s.bytes w.heap = slice w.stream s.start s.stop) ∧
    (∀ buf ∈ w.queue.spare, ∀ s ∈ w.claims, s.data ≠ buf) ∧
    (∀ buf queue, w.queue.takeSpare w.heap.capacity = some (some buf, queue) →
      ({ w with queue } : World).Free buf) ∧
    (w.queue.spare.length ≤ 1 ∨ ∃ b ∈ budgets, w.queue.spare.length ≤ b.2 ∧
      capacitySum w.heap w.queue.spare ≤ b.1) ∧
    (∀ e w', w.Allowed e → w.step e = some w' → e.budgets = [] →
      w.Fits (w.queue.parkRoom, w.queue.parkSlots) →
        w'.Fits (w'.queue.parkRoom, w'.queue.parkSlots)) := by
  have h := h.sound
  have hclaims : ∀ s ∈ w.claims, s ∈ [] ++ w.segs := fun s hs =>
    List.mem_append_right _ (List.mem_append_right _ hs)
  refine ⟨?_, fun e he => ?_, fun start stop segs hclaim => (h.claim_spec hclaim).1,
    fun s hs => (h.owns.bytes s (hclaims s hs)).1,
    fun buf hb s hs => (h.owns.parked buf hb).2 s (hclaims s hs), fun buf queue htake => ?_,
    h.spareBytes ▸ h.within.2, fun e w' he hstep hsame hfits => h.step_fits he hstep hsame hfits⟩
  · rw [← chargeSum_append]
    exact h.held_eq
  · obtain ⟨w', hw, -⟩ := h.step he
    rw [hw]
    rfl
  · obtain ⟨taken, queue', htake', -, hfree⟩ := h.takeSpare
    rw [htake] at htake'
    cases htake'
    exact hfree buf rfl

/-- Two buffers pushed around a part of a shared one, and a claim over all three. The cursor
passes them, the workers let go of the two, which are parked under the budget set before. -/
theorem segQueue_exact_witness : ∃ (budgets : List (ℕ × ℕ)) (w : World),
    budgets = [(100, 4), (0, 0)] ∧ w.queue.spare = [0, 1] ∧ w.queue.lent.length = 1 ∧
    w.claims.map (Seg.bytes w.heap) = [[5, 6]] ∧ w.queue.held = 9 ∧
    (w.queue.held = chargeSum w.queue.q + chargeSum w.queue.lent +
      capacitySum w.heap w.queue.spare ∧
    (∀ e, w.Allowed e → (w.step e).isSome) ∧
    (∀ start stop segs, w.queue.claim start stop = some segs →
      (segs.map (Seg.bytes w.heap)).flatten = slice w.stream start stop) ∧
    (∀ s ∈ w.claims, s.bytes w.heap = slice w.stream s.start s.stop) ∧
    (∀ buf ∈ w.queue.spare, ∀ s ∈ w.claims, s.data ≠ buf) ∧
    (∀ buf queue, w.queue.takeSpare w.heap.capacity = some (some buf, queue) →
      ({ w with queue } : World).Free buf) ∧
    (w.queue.spare.length ≤ 1 ∨ ∃ b ∈ budgets, w.queue.spare.length ≤ b.2 ∧
      capacitySum w.heap w.queue.spare ≤ b.1) ∧
    (∀ e w', w.Allowed e → w.step e = some w' → e.budgets = [] →
      w.Fits (w.queue.parkRoom, w.queue.parkSlots) →
        w'.Fits (w'.queue.parkRoom, w'.queue.parkSlots))) := by
  have h := (Reachable.start 0 0 ⟨fun _ => [], fun _ => 0⟩).step (.pushOwned 0 [1, 2, 3] 4)
    (by decide) rfl
  have h := h.step (.share 7 [4, 5, 6, 7] 4) (by decide) rfl
  have h := h.step (.pushShared 7 1 3) (by decide) rfl
  have h := h.step (.pushOwned 1 [8, 9] 3) (by decide) rfl
  have h := h.step (.claim 2 6) trivial rfl
  have h := h.step (.setParkBudget 100 4) trivial rfl
  have h := h.step (.retainFrom 7 [[], [], [], [0], [1]]) trivial rfl
  exact ⟨_, _, rfl, rfl, rfl, rfl, rfl, segQueue_exact h⟩

end LzmaTurbo.Mt.World
