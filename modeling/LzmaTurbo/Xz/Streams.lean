import LzmaTurbo.Xz.Chains

/-!
# Pushing a block through a chain

The buffer a push works in always has room for the carried tails in front of the new
bytes, because the chain carries no more than it declares.
-/
namespace LzmaTurbo.Xz
open Machine Filters

variable {e : Bool} {cs : List Conv} {fed given : List UInt8} {c : Converters}

@[simp] theorem inOrder_inOrder {α : Type} (e : Bool) (xs : List α) :
    inOrder e (inOrder e xs) = xs := by
  cases e with
  | false => rfl
  | true => exact List.reverse_reverse xs

theorem sum_inOrder {α : Type} (e : Bool) (f : α → ℕ) (xs : List α) :
    ((inOrder e xs).map f).sum = (xs.map f).sum := by
  cases e with
  | false => rfl
  | true =>
      change (xs.reverse.map f).sum = _
      rw [List.map_reverse, List.sum_reverse]

namespace Converters

/-- The chain of the fresh converters `cs`, in decode order, after it has been fed `fed`. -/
def Streams (e : Bool) (cs : List Conv) (fed : List UInt8) (c : Converters) (given : List UInt8) :
    Prop := Fed e (inOrder e cs) fed (inOrder e c.stages) given

theorem carriedBytes_eq (e : Bool) (c : Converters) :
    c.carriedBytes = carried (inOrder e c.stages) :=
  (sum_inOrder e (fun s : Stage => s.carry.length) c.stages).symm

theorem Streams.maxCarry_eq (h : Streams e cs fed c given) :
    c.maxCarry = (cs.map Conv.maxCarry).sum := by
  have hmax := Fed.maxCarry_eq h
  rw [sum_inOrder, sum_inOrder] at hmax
  exact hmax

/-- What is held back is no more than declared, and everything else has been given. -/
theorem Streams.held_back (h : Streams e cs fed c given) :
    c.carriedBytes ≤ c.maxCarry ∧ given.length + c.carriedBytes = fed.length := by
  have hle := Fed.carried_le h
  rw [sum_inOrder] at hle
  rw [h.maxCarry_eq, carriedBytes_eq e]
  exact ⟨hle, Fed.length_eq h⟩

/-- The scratch buffer with the new bytes in place. -/
theorem Streams.scratch_room (h : Streams e cs fed c given) (data : List UInt8) :
    ∃ pre post, pre.length = carried (inOrder e c.stages) ∧
      copyTo (c.scratch ++ List.replicate (data.length + c.maxCarry - c.scratch.length) 0)
        c.carriedBytes data = .ok (pre ++ data ++ post) := by
  obtain ⟨hle, -⟩ := h.held_back
  generalize hcur : c.scratch ++ List.replicate (data.length + c.maxCarry - c.scratch.length) 0 = cur
  have hlen : data.length + c.maxCarry ≤ cur.length := by
    rw [← hcur, List.length_append, List.length_replicate]
    omega
  refine ⟨cur.take c.carriedBytes, cur.drop (c.carriedBytes + data.length), ?_, ?_⟩
  · rw [← carriedBytes_eq, List.length_take]
    omega
  · rw [copyTo, if_pos (by omega)]

theorem sliceOf_front (made post : List UInt8) : sliceOf (made ++ post) 0 made.length = .ok made :=
  sliceOf_mid [] made post

/-- A push. -/
theorem Streams.push (x8664 kernel : Bool) (h : Streams e cs fed c given) (data : List UInt8) :
    ∃ c' made, c.run x8664 kernel data given false e = .ok (c', given ++ made) ∧
      Streams e cs (fed ++ data) c' (given ++ made) := by
  obtain ⟨pre, post, hpre, hcopy⟩ := h.scratch_room data
  obtain ⟨ss, made, post', hrun, hfed⟩ := Fed.turns x8664 kernel h pre data post hpre
  refine ⟨{ stages := inOrder e ss, scratch := made ++ post' }, made, ?_, ?_⟩
  · simp only [run, runBuffer, hcopy, ok_bind]
    rw [carriedBytes_eq e, ← hpre, hrun]
    simp only [ok_bind, sliceOf_front]
  · rw [Streams, inOrder_inOrder]
    exact hfed

/-- The end of the block. -/
theorem Streams.finish (x8664 kernel : Bool) (h : Streams e cs fed c given) (data : List UInt8) :
    ∃ c', c.run x8664 kernel data given true e =
      .ok (c', wholes e (inOrder e cs) (fed ++ data)) ∧ c'.carriedBytes = 0 := by
  obtain ⟨pre, post, hpre, hcopy⟩ := h.scratch_room data
  obtain ⟨ss, made, post', hrun, hgiven, hzero⟩ := Fed.last x8664 kernel h pre data post hpre
  refine ⟨{ stages := inOrder e ss, scratch := made ++ post' }, ?_, ?_⟩
  · simp only [run, runBuffer, hcopy, ok_bind]
    rw [carriedBytes_eq e, ← hpre, hrun]
    simp only [ok_bind, sliceOf_front, hgiven]
  · rw [carriedBytes_eq e, inOrder_inOrder, hzero]

/-- Any run of pushes. -/
theorem Streams.pushes (x8664 kernel : Bool) (h : Streams e cs fed c given)
    (chunks : List (List UInt8)) :
    ∃ c' out, c.pushes x8664 kernel e chunks given = .ok (c', out) ∧
      Streams e cs (fed ++ chunks.flatten) c' out := by
  induction chunks generalizing c fed given with
  | nil =>
      refine ⟨c, given, rfl, ?_⟩
      rw [List.flatten_nil, List.append_nil]
      exact h
  | cons data chunks ih =>
      obtain ⟨c1, made, hrun, hnext⟩ := h.push x8664 kernel data
      obtain ⟨c', out, hrest, hout⟩ := ih hnext
      refine ⟨c', out, ?_, ?_⟩
      · cases e with
        | false =>
            rw [Converters.pushes, if_neg Bool.false_ne_true, Converters.push, hrun, ok_bind]
            exact hrest
        | true =>
            rw [Converters.pushes, if_pos rfl, encodePush, hrun, ok_bind]
            exact hrest
      · rw [List.flatten_cons, ← List.append_assoc]
        exact hout

end Converters

/-- A filter's fresh stage can be called, and its decoder undoes its encoder. -/
theorem FilterFlags.stage_fresh {f : FilterFlags} {s : Stage} (h : f.stage = .ok s) :
    s.carry = [] ∧ s.conv.Ready ∧ ∀ xs, Conv.whole false s.conv (s.conv.whole true xs) = xs := by
  unfold FilterFlags.stage at h
  split at h
  next =>
    cases h
    exact ⟨rfl, trivial, deltaRewriter_undo⟩
  next =>
    split at h
    next => cases h
    next kind _ =>
      rcases hb : Bcj.new kind f.startOffset with err | b
      · rw [hb] at h
        cases h
      · rw [hb] at h
        cases h
        obtain ⟨ha, rfl⟩ := Bcj.new_fields hb
        have h32 : f.startOffset < 2 ^ 32 := by
          unfold FilterFlags.startOffset
          split
          · exact le32_lt _ _ _ _
          · exact Nat.two_pow_pos 32
        exact ⟨rfl, ⟨h32, Nat.zero_le 7⟩, kind_undo (s := (f.startOffset, 0)) kind h32 ha⟩

theorem stages_fresh {filters : List FilterFlags} {stages : List Stage}
    (h : filters.mapM FilterFlags.stage = .ok stages) :
    ∀ s ∈ stages, ∃ f : FilterFlags, f.stage = .ok s := by
  induction filters generalizing stages with
  | nil =>
      cases h
      exact fun s hs => absurd hs List.not_mem_nil
  | cons f filters ih =>
      rw [List.mapM_cons] at h
      rcases hf : f.stage with err | s0
      · rw [hf] at h
        cases h
      rcases hr : filters.mapM FilterFlags.stage with err | rest
      · rw [hf, hr] at h
        cases h
      rw [hf, hr] at h
      cases h
      intro s hs
      rcases List.mem_cons.mp hs with rfl | hs
      · exact ⟨f, hf⟩
      · exact ih hr s hs

/-- A chain's converters as it builds them. -/
theorem FilterChain.build_fresh {chain : FilterChain} {c : Converters} (h : chain.build = .ok c) :
    ∃ cs : List Conv, c.stages = cs.map Stage.fresh ∧ (∀ conv ∈ cs, conv.Ready) ∧
      ∀ conv ∈ cs, ∀ xs, Conv.whole false conv (conv.whole true xs) = xs := by
  rcases hr : chain.converters.mapM FilterFlags.stage with err | stages
  · rw [FilterChain.build, hr] at h
    cases h
  rw [FilterChain.build, hr] at h
  cases h
  have hfresh := stages_fresh hr
  refine ⟨stages.map Stage.conv, ?_, ?_, ?_⟩
  · change stages = _
    rw [List.map_map]
    refine (List.map_id stages).symm.trans (List.map_congr_left fun s hs => ?_)
    obtain ⟨f, hf⟩ := hfresh s hs
    obtain ⟨conv, carry⟩ := s
    obtain ⟨hcarry, -, -⟩ := FilterFlags.stage_fresh hf
    exact congrArg (Stage.mk conv) hcarry
  · intro conv hc
    obtain ⟨s, hs, rfl⟩ := List.mem_map.mp hc
    obtain ⟨f, hf⟩ := hfresh s hs
    exact (FilterFlags.stage_fresh hf).2.1
  · intro conv hc
    obtain ⟨s, hs, rfl⟩ := List.mem_map.mp hc
    obtain ⟨f, hf⟩ := hfresh s hs
    exact (FilterFlags.stage_fresh hf).2.2

namespace Converters

theorem streams_fresh (e : Bool) (hstages : c.stages = cs.map Stage.fresh)
    (hready : ∀ conv ∈ cs, conv.Ready) : Streams e cs [] c [] := by
  have horder : inOrder e (cs.map Stage.fresh) = (inOrder e cs).map Stage.fresh := by
    cases e with
    | false => rfl
    | true => exact List.map_reverse.symm
  have hmem : ∀ conv ∈ inOrder e cs, conv.Ready := by
    cases e with
    | false => exact hready
    | true => exact fun conv hc => hready conv (List.mem_reverse.mp hc)
  rw [Streams, hstages, horder]
  exact Fed.start e hmem

theorem inPlace_eq (x8664 kernel e : Bool) (hstages : c.stages = cs.map Stage.fresh)
    (hready : ∀ conv ∈ cs, conv.Ready) (data : List UInt8) :
    ∃ c', c.inPlace x8664 kernel e data = .ok (wholes e (inOrder e cs) data, c') := by
  have horder : inOrder e (cs.map Stage.fresh) = (inOrder e cs).map Stage.fresh := by
    cases e with
    | false => rfl
    | true => exact List.map_reverse.symm
  have hmem : ∀ conv ∈ inOrder e cs, conv.Ready := by
    cases e with
    | false => exact hready
    | true => exact fun conv hc => hready conv (List.mem_reverse.mp hc)
  obtain ⟨ss, hrun⟩ := @stagesInPlace_eq e _ x8664 kernel hmem data
  refine ⟨{ c with stages := inOrder e ss }, ?_⟩
  rw [inPlace, hstages, horder, hrun, ok_bind]

theorem stream_eq (x8664 kernel e : Bool) (hstages : c.stages = cs.map Stage.fresh)
    (hready : ∀ conv ∈ cs, conv.Ready) (chunks : List (List UInt8)) (last : List UInt8) :
    ∃ c', c.stream x8664 kernel e chunks last =
      .ok (c', wholes e (inOrder e cs) (chunks.flatten ++ last)) ∧ c'.carriedBytes = 0 := by
  obtain ⟨c1, out, hpush, hnext⟩ := (streams_fresh e hstages hready).pushes x8664 kernel chunks
  obtain ⟨c', hrun, hzero⟩ := hnext.finish x8664 kernel last
  rw [List.nil_append] at hrun
  refine ⟨c', ?_, hzero⟩
  rw [stream, hpush, ok_bind]
  cases e
  · exact hrun
  · exact hrun

/-- Pushes of a fresh chain, in either direction: at no time is more held back than declared. -/
theorem pushes_held_back (x8664 kernel e : Bool) (hstages : c.stages = cs.map Stage.fresh)
    (hready : ∀ conv ∈ cs, conv.Ready) (chunks : List (List UInt8)) :
    ∃ c' out, c.pushes x8664 kernel e chunks [] = .ok (c', out) ∧ c'.carriedBytes ≤ c.maxCarry ∧
      out.length + c'.carriedBytes = chunks.flatten.length := by
  have hstart := streams_fresh e hstages hready
  obtain ⟨c', out, hpush, hnext⟩ := hstart.pushes x8664 kernel chunks
  obtain ⟨hle, hlen⟩ := hnext.held_back
  rw [hnext.maxCarry_eq, ← hstart.maxCarry_eq] at hle
  exact ⟨c', out, hpush, hle, hlen⟩

end Converters

/-- Chunked or whole, either way through a chain gives the same bytes. -/
theorem stream_in_place (x8664 kernel : Bool) {chain : FilterChain} {c : Converters}
    (h : chain.build = .ok c) (chunks : List (List UInt8)) (last : List UInt8) :
    (∃ out c1 c2, c.applyInPlace x8664 kernel (chunks.flatten ++ last) = .ok (out, c1) ∧
      c.stream x8664 kernel false chunks last = .ok (c2, out)) ∧
    (∃ enc c1 c2 c3, c.encodeInPlace x8664 kernel (chunks.flatten ++ last) = .ok (enc, c1) ∧
      c.stream x8664 kernel true chunks last = .ok (c2, enc) ∧
      c.applyInPlace x8664 kernel enc = .ok (chunks.flatten ++ last, c3)) ∧
    ∀ e n, ∃ c' out, c.pushes x8664 kernel e (chunks.take n) [] = .ok (c', out) ∧
      c'.carriedBytes ≤ c.maxCarry ∧
      out.length + c'.carriedBytes = (chunks.take n).flatten.length := by
  obtain ⟨cs, hstages, hready, hundo⟩ := FilterChain.build_fresh h
  obtain ⟨c1, happly⟩ :=
    Converters.inPlace_eq x8664 kernel false hstages hready (chunks.flatten ++ last)
  obtain ⟨c2, hdecode, -⟩ := Converters.stream_eq x8664 kernel false hstages hready chunks last
  obtain ⟨c3, hencode⟩ :=
    Converters.inPlace_eq x8664 kernel true hstages hready (chunks.flatten ++ last)
  obtain ⟨c4, hstream, -⟩ := Converters.stream_eq x8664 kernel true hstages hready chunks last
  obtain ⟨c5, hback⟩ := Converters.inPlace_eq x8664 kernel false hstages hready
    (wholes true cs.reverse (chunks.flatten ++ last))
  refine ⟨⟨_, c1, c2, happly, hdecode⟩, ⟨_, c3, c4, c5, hencode, hstream, ?_⟩, fun e n => ?_⟩
  · have hwhole : wholes false (inOrder false cs) (wholes true cs.reverse (chunks.flatten ++ last)) =
        chunks.flatten ++ last := wholes_undo hundo _
    rw [hwhole] at hback
    exact hback
  · exact Converters.pushes_held_back x8664 kernel e hstages hready (chunks.take n)

/-- A difference at distance four under an x86 filter, cut inside an instruction. -/
theorem stream_in_place_x86 :
    ∃ out c1 c2,
      Converters.applyInPlace true true
        ⟨[⟨.bcj ⟨.x86, 16, 0⟩, []⟩, ⟨.delta (Delta.new 3), []⟩], []⟩
        ([[0x90, 0xE8, 1], [0, 0]].flatten ++ [0, 7, 8]) = .ok (out, c1) ∧
      Converters.stream true true false
        ⟨[⟨.bcj ⟨.x86, 16, 0⟩, []⟩, ⟨.delta (Delta.new 3), []⟩], []⟩
        [[0x90, 0xE8, 1], [0, 0]] [0, 7, 8] = .ok (c2, out) :=
  (@stream_in_place true true
    ⟨0, [⟨0x04, #v[16, 0, 0, 0], 4⟩, ⟨0x03, #v[3, 0, 0, 0], 1⟩]⟩ _ rfl
    [[0x90, 0xE8, 1], [0, 0]] [0, 7, 8]).1

end LzmaTurbo.Xz
