import LzmaTurbo.Xz.Converters
import LzmaTurbo.Filters.DeltaRuns
import LzmaTurbo.Filters.BcjRoundTrip

/-!
# One stage of a chain

A stage that has been fed so many bytes and has given so many stands where its
fresh converter would after the same steps, and its carry is what those steps have
left. A turn of `run_buffer` keeps this, wherever the stage's bytes lie in the buffer.
-/
namespace LzmaTurbo.Xz
open Machine Filters Rewriter

namespace Conv

def Ready : Conv → Prop
  | .delta _ => True
  | .bcj b => b.Placed

/-- `out` is made of the front of `xs`; `left` remains, for the converter that stands last. -/
def Steps (e : Bool) : Conv → List UInt8 → List UInt8 → Conv → List UInt8 → Prop
  | .delta d, xs, out, .delta d', left => (deltaRewriter e).Reaches d.history xs out d'.history left
  | .bcj b, xs, out, .bcj b', left => b'.kind = b.kind ∧ b'.Placed ∧
      (kindRewriter e b.kind).Reaches (b.pc, b.state) xs out (b'.pc, b'.state) left
  | _, _, _, _, _ => False

/-- A whole block converted. -/
def whole (e : Bool) : Conv → List UInt8 → List UInt8
  | .delta d, xs => (deltaRewriter e).whole d.history xs
  | .bcj b, xs => (kindRewriter e b.kind).whole (b.pc, b.state) xs

variable {e : Bool} {c c' c'' : Conv} {xs ys out out' left left' : List UInt8}

theorem Steps.refl (e : Bool) (h : c.Ready) (xs : List UInt8) : Steps e c xs [] c xs := by
  cases c with
  | delta d => exact Reaches.refl _ _
  | bcj b => exact ⟨rfl, h, .refl _ _⟩

theorem Steps.pieces (h : Steps e c xs out c' left) (h' : Steps e c' (left ++ ys) out' c'' left') :
    Steps e c (xs ++ ys) (out ++ out') c'' left' := by
  cases c with
  | delta d =>
      cases c' with
      | bcj b' => exact h.elim
      | delta d' =>
          cases c'' with
          | bcj b'' => exact h'.elim
          | delta d'' => exact Reaches.pieces h h'
  | bcj b =>
      cases c' with
      | delta d' => exact h.elim
      | bcj b' =>
          cases c'' with
          | delta d'' => exact h'.elim
          | bcj b'' =>
              obtain ⟨hk, -, hreach⟩ := h
              obtain ⟨hk', hp', hreach'⟩ := h'
              rw [hk] at hk' hreach'
              exact ⟨hk', hp', hreach.pieces hreach'⟩

theorem Steps.ready (h : Steps e c xs out c' left) : c'.Ready ∧ c'.maxCarry = c.maxCarry := by
  cases c with
  | delta d =>
      cases c' with
      | bcj b' => exact h.elim
      | delta d' => exact ⟨trivial, rfl⟩
  | bcj b =>
      cases c' with
      | delta d' => exact h.elim
      | bcj b' => exact ⟨h.2.1, congrArg BcjKind.maxCarry h.1⟩

theorem Steps.length_eq (h : Steps e c xs out c' left) : out.length + left.length = xs.length := by
  cases c with
  | delta d =>
      cases c' with
      | bcj b' => exact h.elim
      | delta d' => exact Reaches.length_eq h
  | bcj b =>
      cases c' with
      | delta d' => exact h.elim
      | bcj b' => exact h.2.2.length_eq

/-- As few bytes as may be carried stay as they are. -/
theorem Steps.settled (h : Steps e c xs out c' left) (hl : left.length ≤ c.maxCarry) :
    c.whole e xs = out ++ left := by
  cases c with
  | delta d =>
      cases c' with
      | bcj b' => exact h.elim
      | delta d' =>
          have hnil : left = [] := List.eq_nil_of_length_eq_zero (Nat.le_zero.mp hl)
          subst hnil
          exact Reaches.settled_whole h whole_nil
  | bcj b =>
      cases c' with
      | delta d' => exact h.elim
      | bcj b' => exact h.2.2.settled_whole (kind_settled e b.kind _ hl)

/-- A call of a converter. -/
theorem code_steps (x8664 kernel e : Bool) (h : c.Ready) (data : List UInt8) :
    ∃ out left c', c.code x8664 kernel e data = .ok (out ++ left, out.length, c') ∧
      left.length ≤ c.maxCarry ∧ Steps e c data out c' left := by
  cases c with
  | delta d =>
      cases e with
      | false =>
          obtain ⟨hreach, -⟩ := d.decode_reaches kernel data
          have hlen := hreach.length_eq
          rw [List.length_nil, Nat.add_zero] at hlen
          refine ⟨(d.decode kernel data).1, [], .delta (d.decode kernel data).2, ?_, Nat.zero_le _,
            hreach⟩
          rw [List.append_nil, hlen]
          rfl
      | true =>
          obtain ⟨hreach, -⟩ := d.encode_reaches data
          have hlen := hreach.length_eq
          rw [List.length_nil, Nat.add_zero] at hlen
          refine ⟨(d.encode data).1, [], .delta (d.encode data).2, ?_, Nat.zero_le _, hreach⟩
          rw [List.append_nil, hlen]
          rfl
  | bcj b =>
      obtain ⟨out, left, b', hrun, hleft, hkind, hplaced, hreach⟩ := Bcj.run_reaches x8664 e h data
      refine ⟨out, left, .bcj b', ?_, hleft, hkind, hplaced, hreach⟩
      cases e with
      | false =>
          rw [Conv.code, if_neg Bool.false_ne_true, Bcj.decode, hrun]
          rfl
      | true =>
          rw [Conv.code, if_pos rfl, Bcj.encode, hrun]
          rfl

end Conv

theorem copyTo_mid {xs ys : List UInt8} (h : ys.length = xs.length) (p q : List UInt8) :
    copyTo (p ++ xs ++ q) p.length ys = .ok (p ++ ys ++ q) := by
  have hlen : (p ++ xs ++ q).length = p.length + xs.length + q.length := by
    rw [List.length_append, List.length_append]
  have hdrop : (p ++ xs ++ q).drop (p.length + ys.length) = q := by
    rw [h, ← List.length_append, List.drop_left]
  rw [copyTo, if_pos (by omega), hdrop, List.append_assoc p xs q, List.take_left]

theorem sliceOf_mid (p xs q : List UInt8) : sliceOf (p ++ xs ++ q) p.length xs.length = .ok xs := by
  have hlen : (p ++ xs ++ q).length = p.length + xs.length + q.length := by
    rw [List.length_append, List.length_append]
  rw [sliceOf, if_pos (by omega), List.append_assoc, List.drop_left, List.take_left]

theorem carryFirst_eq {carry q : List UInt8} (hq : q.length = carry.length) (p data post : List UInt8) :
    carryFirst carry (p ++ q ++ data ++ post) p.length data.length =
      .ok (p ++ (carry ++ data) ++ post, (carry ++ data).length) := by
  by_cases h0 : carry.length ≠ 0
  · rw [carryFirst, if_pos h0, List.append_assoc (p ++ q), copyTo_mid hq.symm, ok_bind,
      List.length_append, Nat.add_comm]
    simp only [List.append_assoc]
  · have hs : carry = [] := List.eq_nil_of_length_eq_zero (not_not.mp h0)
    have hq0 : q = [] := List.eq_nil_of_length_eq_zero (by rw [hq, hs]; rfl)
    rw [carryFirst, if_neg h0, hs, hq0, List.append_nil, List.nil_append]

/-- A stage that has been fed `fed` and has given `given`. -/
def Held (e : Bool) (fresh : Conv) (fed given : List UInt8) (s : Stage) : Prop :=
  fresh.Steps e fed given s.conv s.carry ∧ s.carry.length ≤ fresh.maxCarry

variable {e : Bool} {c : Conv} {fed given : List UInt8} {s : Stage}

/-- One turn of `run_buffer`; at the end of the block what is left is given as it stands. -/
theorem runStage_spec (x8664 kernel flush : Bool) (h : Held e c fed given s)
    (p q data post : List UInt8) (hq : q.length = s.carry.length) :
    ∃ out left conv, c.Steps e (fed ++ data) (given ++ out) conv left ∧
      left.length ≤ c.maxCarry ∧
      runStage x8664 kernel flush e s (p ++ q ++ data ++ post) (p ++ q).length data.length =
        .ok (if flush then (⟨conv, []⟩, p ++ (out ++ left) ++ post, p.length, (out ++ left).length)
          else (⟨conv, left⟩, p ++ out ++ (left ++ post), p.length, out.length)) := by
  obtain ⟨hsteps, hcarry⟩ := h
  obtain ⟨hready, hmax⟩ := hsteps.ready
  obtain ⟨out, left, conv, hcode, hleft, hnext⟩ :=
    Conv.code_steps x8664 kernel e hready (s.carry ++ data)
  rw [hmax] at hleft
  refine ⟨out, left, conv, hsteps.pieces hnext, hleft, ?_⟩
  have hlen := hnext.length_eq
  have hsub : sub (p ++ q).length s.carry.length = .ok p.length := by
    rw [List.length_append, ← hq, sub_ok (Nat.le_add_left _ _), Nat.add_sub_cancel]
  have hbuf : carryFirst s.carry (p ++ q ++ data ++ post) p.length data.length =
      .ok (p ++ (s.carry ++ data) ++ post, (s.carry ++ data).length) :=
    carryFirst_eq hq p data post
  have hwrite : copyTo (p ++ (s.carry ++ data) ++ post) p.length (out ++ left) =
      .ok (p ++ (out ++ left) ++ post) :=
    copyTo_mid (by rw [List.length_append, hlen]) p post
  have hdone : s.conv.done flush (s.carry ++ data).length out.length =
      if flush then (out ++ left).length else out.length := by
    have hall : (out ++ left).length = (s.carry ++ data).length := List.length_append.trans hlen
    rw [hall]
    cases hc : s.conv with
    | bcj b => rfl
    | delta d =>
        rw [hc] at hmax
        have hzero : c.maxCarry = 0 := hmax.symm
        cases flush
        · change (s.carry ++ data).length = out.length
          omega
        · rfl
  rw [runStage, hsub, ok_bind, hbuf, ok_bind]
  simp only [sliceOf_mid, hcode, hwrite, ok_bind, hdone]
  cases flush with
  | true =>
      have hrest := sliceOf_mid (p ++ (out ++ left)) [] post
      have hsize : (p ++ (out ++ left)).length = p.length + (out ++ left).length :=
        List.length_append
      rw [List.append_nil, hsize, List.length_nil] at hrest
      simp only [if_true]
      rw [← hlen, ← List.length_append, sub_ok le_rfl, Nat.sub_self, ok_bind, hrest]
      rfl
  | false =>
      have hrest := sliceOf_mid (p ++ out) left post
      rw [List.length_append] at hrest
      simp only [Bool.false_eq_true, if_false]
      rw [← hlen, sub_ok (Nat.le_add_right _ _), Nat.add_sub_cancel_left, ok_bind,
        ← List.append_assoc p out left, hrest, ok_bind, List.append_assoc (p ++ out)]

end LzmaTurbo.Xz
