import LzmaTurbo.Filters.BcjX86Run

/-!
# Every converter and its inverse

A converter of any kind rewrites its buffer and leaves fewer bytes than its carry at the
end; the rewriter of one direction undoes that of the other.
-/
namespace LzmaTurbo.Filters
open Machine BitFields Rewriter

section
variable {pc v i : ℕ} {s : Place}

theorem wrappingAdd32_zero (h : pc < 2 ^ 32) : wrappingAdd32 pc 0 = pc := by
  rw [wrappingAdd32, Nat.add_zero, Nat.mod_eq_of_lt h]

theorem wordPc_zero (h : pc < 2 ^ 32) : wordPc pc 0 = pc := wrappingAdd32_zero h

/-- The address is all a word's conversion takes from where it stands. -/
theorem word_address (pc i : ℕ) (e : Bool) (v : ℕ) :
    armWord pc e i v = armWord (wordPc pc i) e 0 v ∧ ppcWord pc e i v = ppcWord (wordPc pc i) e 0 v ∧
      sparcWord pc e i v = sparcWord (wordPc pc i) e 0 v ∧
      arm64Word pc e i v = arm64Word (wordPc pc i) e 0 v := by
  have h := wordPc_zero (wordPc_lt pc i)
  refine ⟨?_, ?_, ?_, ?_⟩
  · rw [armWord, armWord, h]
  · rw [ppcWord, ppcWord, h]
  · rw [sparcWord, sparcWord, h]
  · rw [arm64Word, arm64Word, h]

theorem word_lt (pc i : ℕ) (e : Bool) (hv : v < 2 ^ 32) :
    armWord pc e i v < 2 ^ 32 ∧ ppcWord pc e i v < 2 ^ 32 ∧ sparcWord pc e i v < 2 ^ 32 ∧
      arm64Word pc e i v < 2 ^ 32 := by
  have hand : ∀ x y : ℕ, y < 2 ^ 32 → x &&& y < 2 ^ 32 :=
    fun x y h => Nat.lt_of_le_of_lt Nat.and_le_right h
  refine ⟨?_, ?_, ?_, ?_⟩
  · rw [armWord]
    split
    · exact Nat.or_lt_two_pow (hand _ _ (by norm_num)) (by norm_num)
    · exact hv
  · rw [ppcWord]
    split
    · exact swapBytes_lt _
    · exact hv
  · rw [sparcWord]
    simp only
    split
    · exact swapBytes_lt _
    · exact hv
  · have hu : ∀ x, u32 x < 2 ^ 32 := fun x => Nat.mod_lt _ (by norm_num)
    rw [arm64Word]
    simp only
    split
    · exact Nat.or_lt_two_pow (hand _ _ (by norm_num)) (by norm_num)
    · split
      · split
        · exact hv
        · refine Nat.or_lt_two_pow (Nat.or_lt_two_pow (Nat.or_lt_two_pow (hand _ _ (by norm_num))
            (by norm_num)) (hu _)) ?_
          exact Nat.lt_of_le_of_lt Nat.and_le_left (by norm_num)
      · exact hv

/-- What a converter of a kind does to a buffer, one instruction at a time. -/
def kindRewriter (e : Bool) : BcjKind → Rewriter UInt8 Place
  | .x86 => x86Rewriter e
  | .ppc => wordRewriter fun pc v => ppcWord pc e 0 v
  | .ia64 => bundleRewriter e
  | .arm => wordRewriter fun pc v => armWord pc e 0 v
  | .armThumb => thumbRewriter e
  | .sparc => wordRewriter fun pc v => sparcWord pc e 0 v
  | .arm64 => wordRewriter fun pc v => arm64Word pc e 0 v
  | .riscV => riscvRewriter e

theorem wordRewriter_settled {g : ℕ → ℕ → ℕ} {xs : List UInt8} (h : xs.length < 4) :
    (wordRewriter g).Settled s xs := settled_none (wordStep_short h)

/-- As few bytes as may be carried stay as they are. -/
theorem kind_settled (e : Bool) (k : BcjKind) (s : Place) {xs : List UInt8}
    (h : xs.length ≤ k.maxCarry) : (kindRewriter e k).Settled s xs := by
  have hle := Nat.lt_succ_of_le h
  cases k with
  | x86 => exact x86_settled s hle
  | ppc => exact wordRewriter_settled hle
  | ia64 => exact settled_none (bundleStep_short hle)
  | arm => exact wordRewriter_settled hle
  | armThumb => exact settled_none (thumbStep_short hle)
  | sparc => exact wordRewriter_settled hle
  | arm64 => exact wordRewriter_settled hle
  | riscV => exact riscv_settled s hle

theorem wrappingAdd32_lt (a b : ℕ) : wrappingAdd32 a b < 2 ^ 32 := Nat.mod_lt _ (by norm_num)

theorem kind_undo (k : BcjKind) (hs : s.1 < 2 ^ 32) (ha : s.1 % k.alignment = 0) (xs : List UInt8) :
    (kindRewriter false k).whole s ((kindRewriter true k).whole s xs) = xs := by
  cases k with
  | x86 => exact x86Rewriter_undo s xs
  | ppc =>
      refine wordRewriter_undo (fun pc => pc % 4 = 0) (fun pc h => ?_) (fun pc v h hv => ?_) ha xs
      · rw [wrappingAdd32]
        omega
      · exact ⟨(word_lt pc 0 true hv).2.1, ppcWord_undo 0 h hv⟩
  | ia64 => exact bundleRewriter_undo s xs
  | arm =>
      refine wordRewriter_undo (fun _ => True) (fun _ _ => trivial) (fun pc v _ hv => ?_) trivial xs
      exact ⟨(word_lt pc 0 true hv).1, armWord_undo pc 0 v⟩
  | armThumb => exact thumbRewriter_undo s xs
  | sparc =>
      refine wordRewriter_undo (fun pc => pc % 4 = 0) (fun pc h => ?_) (fun pc v h hv => ?_) ha xs
      · rw [wrappingAdd32]
        omega
      · exact ⟨(word_lt pc 0 true hv).2.2.1, sparcWord_undo 0 h hv⟩
  | arm64 =>
      refine wordRewriter_undo (fun _ => True) (fun _ _ => trivial) (fun pc v _ hv => ?_) trivial xs
      exact ⟨(word_lt pc 0 true hv).2.2.2, arm64Word_undo pc 0 hv⟩
  | riscV => exact riscvRewriter_undo hs ha xs

/-- A converter's result: what it processed and what it left, in the words of a rewriter. -/
def Converted (m : Rewriter UInt8 Place) (carry : ℕ) (s : Place) (data : List UInt8)
    (r : Except Fault (List UInt8 × ℕ × ℕ)) : Prop :=
  ∃ out left s', r = .ok (out ++ left, out.length, s'.2) ∧ left.length ≤ carry ∧
    m.Reaches s data out s' left

theorem converted_words {f g : ℕ → ℕ → ℕ} {k : ℕ} (hpc : pc < 2 ^ 32)
    (hfg : ∀ i v, v < 2 ^ 32 → f i v = g (wordPc pc i) v) (data : List UInt8) :
    Converted (wordRewriter g) 3 (pc, k) data
      (.ok (eachWord f 0 data, data.length / 4 * 4, k)) := by
  obtain ⟨out, left, heach, hout, hleft, hreach⟩ := eachWord_reaches (m := k) hfg 0 data
  rw [wordPc_zero hpc] at hreach
  refine ⟨out, left, _, ?_, by omega, hreach⟩
  rw [heach, hout]

theorem thumbStep_even {e : Bool} {s s' : Place} {xs out : List UInt8}
    (h : (thumbRewriter e).step s xs = some (out, s')) : out.length % 2 = 0 := by
  obtain ⟨a, b, c, d, rest, -, ⟨-, rfl, -⟩ | ⟨-, rfl, -⟩⟩ := thumbStep_some h
  · rw [length_bytes32]
  · exact Nat.mod_self 2

/-- Both Thumb converters, from any address. -/
theorem thumb_reaches (x8664 e : Bool) (pc k : ℕ) (data : List UInt8) :
    ∃ out left s', armtConv x8664 data pc e = .ok (out ++ left, out.length) ∧ left.length ≤ 3 ∧
      s'.2 = k ∧ (thumbRewriter e).Reaches (wrappingAdd32 pc 0, k) data out s' left := by
  have hsplit := List.take_append_drop (data.length / 2 * 2) data
  unfold armtConv
  cases x8664
  · rw [if_neg Bool.false_ne_true, armtBytewiseConv]
    by_cases hsize : data.length / 2 * 2 ≤ 2
    · rw [if_pos hsize]
      exact ⟨[], data, _, rfl, by omega, rfl, .refl _ _⟩
    · obtain ⟨out, left, s', hrun, hl, hk, hreach⟩ :=
        @armtByteLoop_reaches e pc (data.length + 1) data [] (data.length / 2 - 1) k
        (by omega) (by omega) (by omega)
      rw [List.length_nil] at hreach
      rw [List.length_nil, Nat.zero_add, show 2 * (data.length / 2 - 1) = data.length / 2 * 2 - 2 by omega]
        at hrun
      refine ⟨out, left, s', ?_, by omega, hk, hreach⟩
      rw [if_neg hsize]
      simp only [List.nil_append] at hrun
      rw [hrun]
  · rw [if_pos rfl, armtWordConv]
    obtain ⟨out, left, s', hrun, hl, hk, hreach⟩ := armtWordLoop_reaches (e := e) pc k 0
      (data.take (data.length / 2 * 2))
    have hlen := hreach.length_eq
    have hdrop := hreach.append (data.drop (data.length / 2 * 2))
    have hodd : out.length % 2 = 0 := hreach.length_mod thumbStep_even
    rw [hsplit] at hdrop
    refine ⟨out, left ++ data.drop (data.length / 2 * 2), s', ?_, ?_, hk, hdrop⟩
    · simp only [hrun, List.append_assoc, Nat.zero_add]
    · rw [List.length_take] at hlen
      rw [List.length_append, List.length_drop]
      omega

theorem converted_thumb (x8664 e : Bool) {k : ℕ} (hpc : pc < 2 ^ 32) (data : List UInt8) :
    Converted (thumbRewriter e) 3 (pc, k) data (do
      let (d, n) ← armtConv x8664 data pc e
      .ok (d, n, k)) := by
  obtain ⟨out, left, s', hrun, hl, hk, hreach⟩ := thumb_reaches x8664 e pc k data
  rw [wrappingAdd32_zero hpc] at hreach
  refine ⟨out, left, s', ?_, hl, hreach⟩
  rw [hrun, hk]
  rfl

theorem converted_bundles (e : Bool) {k : ℕ} (hpc : pc < 2 ^ 32) (data : List UInt8) :
    Converted (bundleRewriter e) 15 (pc, k) data (do
      let (d, n) ← ia64Conv data pc e
      .ok (d, n, k)) := by
  have hlt : wrappingSub32 pc (1 <<< 4) >>> 3 + 2 < 2 ^ 32 := by
    rw [Nat.shiftRight_eq_div_pow, wrappingSub32]
    omega
  have hq : (wrappingSub32 pc (1 <<< 4) >>> 3 + 2) % 2 ^ 22 = bundleAddress pc := by
    have hconst : (1 <<< 4 : ℕ) = 16 := rfl
    rw [Nat.shiftRight_eq_div_pow, hconst, bundleAddress, wrappingSub32]
    omega
  obtain ⟨out, left, s', hrun, hl, hk, hreach⟩ := @ia64Loop_reaches e _ (data.length + 1) data []
    (data.length / 16) _ k (by omega) (by omega) (by omega) hq
  rw [List.length_nil, Nat.zero_add, Nat.mul_comm] at hrun
  simp only [List.nil_append, Nat.zero_add] at hrun
  refine ⟨out, left, s', ?_, by omega, hreach⟩
  rw [ia64Conv, hrun, hk]
  rfl

theorem converted_riscv (e : Bool) {k : ℕ} (hpc : pc < 2 ^ 32) (data : List UInt8) :
    Converted (riscvRewriter e) 7 (pc, k) data (do
      let (d, n) ← riscvRun (riscvAt e) data pc
      .ok (d, n, k)) := by
  have hzero := wrappingAdd32_zero hpc
  rw [riscvRun]
  by_cases hsize : data.length / 2 * 2 ≤ 6
  · simp only [if_pos hsize]
    exact ⟨[], data, (pc, k), rfl, by omega, .refl _ _⟩
  · obtain ⟨out, left, s', hloop, hl, hk, hreach⟩ :=
      @riscvLoop_reaches e pc (data.length + 1) (data.length / 2 * 2 - 6) data [] k
      (by omega) (by rw [List.length_nil]; omega) (by rw [List.length_nil]; omega)
      (by rw [List.length_nil]; omega)
    rw [List.length_nil, hzero] at hreach
    simp only [List.nil_append, List.length_nil] at hloop
    refine ⟨out, left, s', ?_, by omega, hreach⟩
    simp only [if_neg hsize, hloop, ok_bind, hk]

theorem converted_x86 (e : Bool) {k : ℕ} (hpc : pc < 2 ^ 32) (hk : k ≤ 7) (data : List UInt8) :
    Converted (x86Rewriter e) 4 (pc, k) data (x86Conv data pc k e) := by
  rw [x86Conv]
  by_cases hsize : data.length < 5
  · rw [if_pos hsize]
    exact ⟨[], data, (pc, k), rfl, by omega, .refl _ _⟩
  · obtain ⟨out, left, s', hloop, hdata, hp, hl, hreach⟩ := @x86Loop_reaches e pc _
      (4 * data.length + 20) (data.length - 4) _ _ _ (@X86At.start [] data k)
      hk (by rw [List.nil_append]; omega) (by simp [labelWeight])
    simp only [List.nil_append, List.length_nil] at hloop hdata hp hreach
    rw [x86Place, wrappingAdd32_zero hpc] at hreach
    refine ⟨out, left, _, ?_, hl, hreach⟩
    rw [if_neg hsize, hloop, ok_bind, hdata, hp]
    rfl

/-- A step moves on by what it gives, and three kept bits stay three. -/
theorem kind_step_place {e : Bool} {k : BcjKind} {s s' : Place} {xs out : List UInt8}
    (h : (kindRewriter e k).step s xs = some (out, s')) :
    s'.1 = wrappingAdd32 s.1 out.length ∧ (s.2 ≤ 7 → s'.2 ≤ 7) := by
  have hword : ∀ g, (wordRewriter g).step s xs = some (out, s') →
      s'.1 = wrappingAdd32 s.1 out.length ∧ (s.2 ≤ 7 → s'.2 ≤ 7) := by
    intro g h
    obtain ⟨a, b, c, d, rest, -, rfl, rfl⟩ := wordStep_some h
    exact ⟨rfl, id⟩
  cases k with
  | x86 =>
      have hshift : s.2 ≤ 7 → s.2 >>> 1 ≤ 3 := fun hs => by
        rw [Nat.shiftRight_eq_div_pow]
        omega
      obtain ⟨b, rest, -, ⟨-, rfl, rfl⟩ | ⟨o0, o1, o2, o3, tail, -, -, ⟨-, rfl, rfl⟩ |
        ⟨-, rfl, rfl⟩⟩⟩ := x86Step_some h
      · exact ⟨rfl, fun hs => (hshift hs).trans (by norm_num)⟩
      · refine ⟨rfl, fun hs => Nat.le_of_lt_succ ?_⟩
        exact @Nat.or_lt_two_pow _ _ 3 (Nat.lt_of_le_of_lt (hshift hs) (by norm_num)) (by norm_num)
      · exact ⟨rfl, fun _ => Nat.zero_le 7⟩
  | ppc => exact hword _ h
  | ia64 =>
      obtain ⟨-, -, hlen, rfl⟩ := bundleStep_some h
      rw [hlen]
      exact ⟨rfl, id⟩
  | arm => exact hword _ h
  | armThumb =>
      obtain ⟨a, b, c, d, rest, -, ⟨-, rfl, rfl⟩ | ⟨-, rfl, rfl⟩⟩ := thumbStep_some h
      · exact ⟨rfl, id⟩
      · exact ⟨rfl, id⟩
  | sparc => exact hword _ h
  | arm64 => exact hword _ h
  | riscV =>
      obtain ⟨a, b, rest, -, -, rfl, rfl⟩ | ⟨a, b, c, d, w0, w1, w2, w3, rest, -, -, -, rfl⟩ :=
        riscvStep_some h
      · exact ⟨rfl, id⟩
      · exact ⟨rfl, id⟩

theorem kind_place {e : Bool} {k : BcjKind} {s s' : Place} {xs out left : List UInt8}
    (h : (kindRewriter e k).Reaches s xs out s' left) (hpc : s.1 < 2 ^ 32) (hst : s.2 ≤ 7) :
    s'.1 = wrappingAdd32 s.1 out.length ∧ s'.2 ≤ 7 := by
  induction h with
  | refl s xs => exact ⟨(wrappingAdd32_zero hpc).symm, hst⟩
  | step hstep _ ih =>
      obtain ⟨haddr, hkeep⟩ := kind_step_place hstep
      obtain ⟨haddr', hkeep'⟩ := ih (haddr ▸ wrappingAdd32_lt _ _) (hkeep hst)
      rw [haddr', haddr, wrappingAdd32_assoc, List.length_append]
      exact ⟨rfl, hkeep'⟩

end

namespace Bcj

variable {x8664 e : Bool} {b b' : Bcj} {data enc dec : List UInt8} {n : ℕ}

/-- Every converter makes steps of its kind's rewriter. -/
theorem convert_converted (x8664 e : Bool) (hpc : b.pc < 2 ^ 32) (hst : b.state ≤ 7)
    (data : List UInt8) : Converted (kindRewriter e b.kind) b.kind.maxCarry (b.pc, b.state) data
      (b.convert x8664 e data) := by
  obtain ⟨kind, pc, state⟩ := b
  have haddr := fun i v (hv : v < 2 ^ 32) => word_address pc i e v
  cases kind with
  | x86 => exact converted_x86 e hpc hst data
  | ppc => exact converted_words hpc (fun i v hv => (haddr i v hv).2.1) data
  | ia64 => exact converted_bundles e hpc data
  | arm => exact converted_words hpc (fun i v hv => (haddr i v hv).1) data
  | armThumb => exact converted_thumb x8664 e hpc data
  | sparc =>
      refine converted_words hpc (fun i v hv => ?_) data
      rw [sparc_searched x8664 pc i e hv]
      exact (haddr i v hv).2.2.1
  | arm64 =>
      refine converted_words hpc (fun i v hv => ?_) data
      rw [arm64_searched x8664 pc i e hv]
      exact (haddr i v hv).2.2.2
  | riscV =>
      have h := converted_riscv e (k := state) hpc data
      cases e
      · exact h
      · exact h

/-- What a converter needs to know of its place. -/
def Placed (b : Bcj) : Prop := b.pc < 2 ^ 32 ∧ b.state ≤ 7

/-- A call of the converter, and the converter it leaves for what follows. -/
theorem run_reaches (x8664 e : Bool) (hb : b.Placed) (data : List UInt8) :
    ∃ out left b', b.run x8664 e data = .ok (out ++ left, out.length, b') ∧
      left.length ≤ b.kind.maxCarry ∧ b'.kind = b.kind ∧ b'.Placed ∧
      (kindRewriter e b.kind).Reaches (b.pc, b.state) data out (b'.pc, b'.state) left := by
  obtain ⟨hpc, hst⟩ := hb
  obtain ⟨out, left, s', hconv, hleft, hreach⟩ := convert_converted x8664 e hpc hst data
  obtain ⟨haddr, hkeep⟩ := kind_place hreach hpc hst
  refine ⟨out, left, { b with state := s'.2, pc := wrappingAdd32 b.pc (u32 out.length) }, ?_, hleft,
    rfl, ⟨wrappingAdd32_lt _ _, hkeep⟩, ?_⟩
  · rw [run, hconv]
    rfl
  · have hs : s' = (wrappingAdd32 b.pc (u32 out.length), s'.2) := by
      rw [wrappingAdd32_u32, ← haddr]
    rw [hs] at hreach
    exact hreach

/-- A whole buffer converted is the rewriter's whole buffer. -/
theorem run_whole (x8664 e : Bool) (hpc : b.pc < 2 ^ 32) (hst : b.state ≤ 7) (data : List UInt8) :
    ∃ n b', b.run x8664 e data =
      .ok ((kindRewriter e b.kind).whole (b.pc, b.state) data, n, b') := by
  obtain ⟨out, left, b', hrun, hleft, -, -, hreach⟩ := run_reaches x8664 e ⟨hpc, hst⟩ data
  rw [hreach.settled_whole (kind_settled e b.kind _ hleft)]
  exact ⟨_, b', hrun⟩

theorem new_fields {kind : BcjKind} {startOffset : ℕ} (h : new kind startOffset = .ok b) :
    startOffset % kind.alignment = 0 ∧ b = ⟨kind, startOffset, 0⟩ := by
  unfold new at h
  split at h
  next ha =>
    cases h
    exact ⟨ha, rfl⟩
  next => cases h

/-- What a fresh converter encodes, a fresh one decodes. -/
theorem decode_encode (x8664 : Bool) {kind : BcjKind} {startOffset : ℕ} (h32 : startOffset < 2 ^ 32)
    (hnew : new kind startOffset = .ok b) (data : List UInt8) :
    ∃ enc n b1, encode x8664 b data = .ok (enc, n, b1) ∧
      ∃ n' b2, decode x8664 b enc = .ok (data, n', b2) := by
  obtain ⟨ha, rfl⟩ := new_fields hnew
  obtain ⟨n, b1, henc⟩ := run_whole (b := ⟨kind, startOffset, 0⟩) x8664 true h32 (Nat.zero_le 7) data
  obtain ⟨n', b2, hdec⟩ := run_whole (b := ⟨kind, startOffset, 0⟩) x8664 false h32 (Nat.zero_le 7)
    ((kindRewriter true kind).whole (startOffset, 0) data)
  rw [kind_undo (s := (startOffset, 0)) kind h32 ha data] at hdec
  exact ⟨_, n, b1, henc, n', b2, hdec⟩

/-- An ARM call close to the end of the address space. -/
theorem decode_encode_arm : ∃ enc n b1,
    encode true ⟨.arm, 0xFFFFFFF8, 0⟩ [1, 2, 3, 0xEB, 5, 6, 7, 0xEB, 9] = .ok (enc, n, b1) ∧
      ∃ n' b2, decode true ⟨.arm, 0xFFFFFFF8, 0⟩ enc =
        .ok ([1, 2, 3, 0xEB, 5, 6, 7, 0xEB, 9], n', b2) :=
  @decode_encode _ true .arm 0xFFFFFFF8 (by norm_num) rfl _

end Bcj

end LzmaTurbo.Filters
