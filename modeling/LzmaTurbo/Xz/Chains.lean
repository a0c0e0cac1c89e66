import LzmaTurbo.Xz.Stages

/-!
# A chain in chunks is the chain on the whole block

Every stage is fed what the one before it gave. A push keeps that for the whole
chain and the end of the block brings each stage to its whole output, so what comes
out of the far end is the block converted in place.
-/
namespace LzmaTurbo.Xz
open Machine Filters Rewriter

/-- Stages fed `fed` that have given `given`, with the fresh converter of each. -/
inductive Fed (e : Bool) : List Conv → List UInt8 → List Stage → List UInt8 → Prop
  | nil (fed : List UInt8) : Fed e [] fed [] fed
  | cons {c : Conv} {cs : List Conv} {s : Stage} {ss : List Stage} {fed mid given : List UInt8} :
      Held e c fed mid s → Fed e cs mid ss given → Fed e (c :: cs) fed (s :: ss) given

/-- A whole block through the converters. -/
def wholes (e : Bool) : List Conv → List UInt8 → List UInt8
  | [], xs => xs
  | c :: cs, xs => wholes e cs (c.whole e xs)

def Stage.fresh (c : Conv) : Stage := { conv := c, carry := [] }

def carried (ss : List Stage) : ℕ := (ss.map fun s => s.carry.length).sum

variable {e : Bool} {c : Conv} {cs : List Conv} {ss : List Stage} {fed given : List UInt8}

theorem Held.start (e : Bool) (h : c.Ready) : Held e c [] [] (Stage.fresh c) :=
  ⟨Conv.Steps.refl e h [], Nat.zero_le _⟩

namespace Fed

theorem start (e : Bool) (h : ∀ c ∈ cs, c.Ready) : Fed e cs [] (cs.map Stage.fresh) [] := by
  induction cs with
  | nil => exact .nil []
  | cons c cs ih =>
      exact .cons (Held.start e (h c (List.mem_cons_self ..)))
        (ih fun c hc => h c (List.mem_cons_of_mem _ hc))

/-- The carry never passes its declared bound. -/
theorem carried_le (h : Fed e cs fed ss given) : carried ss ≤ (cs.map Conv.maxCarry).sum := by
  induction h with
  | nil fed => exact Nat.zero_le _
  | cons hs _ ih => exact Nat.add_le_add hs.2 ih

theorem maxCarry_eq (h : Fed e cs fed ss given) :
    (ss.map fun s => s.conv.maxCarry).sum = (cs.map Conv.maxCarry).sum := by
  induction h with
  | nil fed => rfl
  | cons hs _ ih => exact congrArg₂ (· + ·) hs.1.ready.2 ih

/-- A byte is given or carried. -/
theorem length_eq (h : Fed e cs fed ss given) : given.length + carried ss = fed.length := by
  induction h with
  | nil fed => rfl
  | @cons c cs s ss fed mid given hs _ ih =>
      have hlen := hs.1.length_eq
      change given.length + (s.carry.length + carried ss) = fed.length
      omega

/-- A chunk through every stage. -/
theorem turns (x8664 kernel : Bool) (h : Fed e cs fed ss given) (pre data post : List UInt8)
    (hpre : pre.length = carried ss) :
    ∃ ss' made post', runStages x8664 kernel false e ss (pre ++ data ++ post) pre.length data.length =
        .ok (ss', made ++ post', made.length) ∧ Fed e cs (fed ++ data) ss' (given ++ made) := by
  induction h generalizing pre data post with
  | nil fed =>
      have hnil : pre = [] := List.eq_nil_of_length_eq_zero hpre
      subst hnil
      exact ⟨[], data, post, rfl, .nil _⟩
  | @cons c cs s ss fed mid given hs _ ih =>
      have hsum : pre.length = s.carry.length + carried ss := hpre
      have hq : (pre.drop (carried ss)).length = s.carry.length := by
        rw [List.length_drop]
        omega
      obtain ⟨out, left, conv, hsteps, hleft, hrun⟩ := runStage_spec x8664 kernel false hs
        (pre.take (carried ss)) (pre.drop (carried ss)) data post hq
      rw [List.take_append_drop, if_neg Bool.false_ne_true] at hrun
      obtain ⟨ss', made, post', hrest, hfed⟩ := ih (pre.take (carried ss)) out (left ++ post)
        (by rw [List.length_take]; omega)
      refine ⟨⟨conv, left⟩ :: ss', made, post', ?_, .cons ⟨hsteps, hleft⟩ hfed⟩
      rw [runStages, hrun, ok_bind]
      simp only [hrest, ok_bind]

/-- The last chunk: every stage comes to its whole output and nothing stays behind. -/
theorem last (x8664 kernel : Bool) (h : Fed e cs fed ss given) (pre data post : List UInt8)
    (hpre : pre.length = carried ss) :
    ∃ ss' made post', runStages x8664 kernel true e ss (pre ++ data ++ post) pre.length data.length =
        .ok (ss', made ++ post', made.length) ∧ given ++ made = wholes e cs (fed ++ data) ∧
      carried ss' = 0 := by
  induction h generalizing pre data post with
  | nil fed =>
      have hnil : pre = [] := List.eq_nil_of_length_eq_zero hpre
      subst hnil
      exact ⟨[], data, post, rfl, rfl, rfl⟩
  | @cons c cs s ss fed mid given hs _ ih =>
      have hsum : pre.length = s.carry.length + carried ss := hpre
      have hq : (pre.drop (carried ss)).length = s.carry.length := by
        rw [List.length_drop]
        omega
      obtain ⟨out, left, conv, hsteps, hleft, hrun⟩ := runStage_spec x8664 kernel true hs
        (pre.take (carried ss)) (pre.drop (carried ss)) data post hq
      rw [List.take_append_drop, if_pos rfl] at hrun
      obtain ⟨ss', made, post', hrest, hgiven, hzero⟩ := ih (pre.take (carried ss)) (out ++ left)
        post (by rw [List.length_take]; omega)
      refine ⟨⟨conv, []⟩ :: ss', made, post', ?_, ?_, ?_⟩
      · rw [runStages, hrun, ok_bind]
        simp only [hrest, ok_bind]
      · rw [hgiven, wholes, hsteps.settled hleft, List.append_assoc]
      · exact (Nat.zero_add _).trans hzero

end Fed

/-- A fresh chain on a whole block. -/
theorem stagesInPlace_eq (x8664 kernel : Bool) (h : ∀ c ∈ cs, c.Ready) (data : List UInt8) :
    ∃ ss, stagesInPlace x8664 kernel e (cs.map Stage.fresh) data = .ok (wholes e cs data, ss) := by
  induction cs generalizing data with
  | nil => exact ⟨[], rfl⟩
  | cons c cs ih =>
      obtain ⟨out, left, conv, hcode, hleft, hsteps⟩ :=
        Conv.code_steps x8664 kernel e (h c (List.mem_cons_self ..)) data
      obtain ⟨ss, hrest⟩ := ih (fun c hc => h c (List.mem_cons_of_mem _ hc)) (out ++ left)
      refine ⟨⟨conv, []⟩ :: ss, ?_⟩
      rw [wholes, hsteps.settled hleft, List.map_cons, stagesInPlace, Stage.fresh, hcode, ok_bind]
      simp only [hrest, ok_bind]

/-- What one order of the converters made, the other undoes. -/
theorem wholes_undo (h : ∀ c ∈ cs, ∀ xs, Conv.whole false c (Conv.whole true c xs) = xs)
    (xs : List UInt8) : wholes false cs (wholes true cs.reverse xs) = xs := by
  have happ : ∀ (l : List Conv) (c : Conv) (ys : List UInt8),
      wholes true (l ++ [c]) ys = c.whole true (wholes true l ys) := by
    intro l c
    induction l with
    | nil => exact fun _ => rfl
    | cons a l ih => exact fun ys => ih (a.whole true ys)
  induction cs with
  | nil => rfl
  | cons c cs ih =>
      rw [List.reverse_cons, happ, wholes, h c (List.mem_cons_self ..)]
      exact ih fun c hc => h c (List.mem_cons_of_mem _ hc)

end LzmaTurbo.Xz
