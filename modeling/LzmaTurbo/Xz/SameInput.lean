import LzmaTurbo.Xz.ReaderLimits

/-!
# Readers of the same input

A turn outside a block sees of the source only the bytes it still has to give, and of the
limits only whether a header declares more than they allow. So readers of the same bytes go the
same way, whatever the portions and the limits are.
-/
namespace LzmaTurbo.Xz
open Machine Lzma Lzma2 Mt Vli

/-- Sources of the same bytes. -/
structure Source.Same (s t : Source) : Prop where
  left : s.Sound
  right : t.Sound
  stream : s.stream = t.stream

namespace Source
variable {s s' t : Source}

/-- What was asked for is what comes first. -/
theorem Filled.take {n : ℕ} (h : s.Filled n s') : s'.avail.take n = s.stream.take n := by
  rw [← h.stream, Source.stream]
  rcases h.full with hle | hnil
  · rw [List.take_append_of_le_length hle]
  · rw [hnil, List.append_nil]

theorem Same.takeInto (h : s.Same t) {n : ℕ} (hn : n ≤ bufSize) {bytes : List UInt8}
    (hs : s.takeInto n = some (bytes, s')) :
    ∃ t', t.takeInto n = some (bytes, t') ∧ s'.Same t' := by
  obtain ⟨hlen, hstream, hsound, -⟩ := takeInto_of_some h.left hn hs
  obtain ⟨t', ht', hrest, hsound', -⟩ := takeInto_some h.right bytes (h.stream ▸ hstream)
    (hlen ▸ hn)
  rw [hlen] at ht'
  exact ⟨t', ht', hsound, hsound', hrest.symm⟩

theorem Same.fillAtLeast (h : s.Same t) {n : ℕ} (hn : n ≤ bufSize) :
    (s.fillAtLeast n).Same (t.fillAtLeast n) ∧
      (s.fillAtLeast n).avail.take n = (t.fillAtLeast n).avail.take n := by
  have hs := fillAtLeast_filled h.left hn
  have ht := fillAtLeast_filled h.right hn
  refine ⟨⟨hs.sound, ht.sound, ?_⟩, ?_⟩
  · rw [hs.stream, ht.stream, h.stream]
  · rw [hs.take, ht.take, h.stream]

end Source

/-- Runs over an index that have come to the same place. -/
structure IndexRun.Same {crc : LzmaTurbo.Crc.Digest UInt32} (r t : IndexRun crc) : Prop where
  src : r.src.Same t.src
  rest : t = { r with src := t.src }

section
open XzReader
variable {crc : LzmaTurbo.Crc.Digest UInt32} {K : LzmaTurbo.Crc.Digest UInt64}
  {r r' t : IndexRun crc}

theorem indexVli_ran {v : ℕ} (h : r.src.Sound) (hv : indexVli r = .ok (v, r')) :
    r' = ⟨r'.src, crc.update r.crc (encodeLoop v), r.size + (encodeLoop v).length⟩ := by
  obtain ⟨-, hread⟩ := indexVli_ok h hv
  unfold indexVli at hv
  dsimp only at hv
  split at hv
  · cases hv
  next value len hdec =>
    cases hv
    obtain ⟨-, hn, hbytes⟩ := decode_ok_iff.1 hdec
    rw [show (r.src.fillAtLeast vliMaxBytes).avail.take len = encodeLoop v by
      rw [hbytes, hn, List.take_left], hn]

theorem IndexRun.Same.vli (h : r.Same t) {v : ℕ} (hv : indexVli r = .ok (v, r')) :
    ∃ t', indexVli t = .ok (v, t') ∧ r'.Same t' := by
  obtain ⟨hle, hread⟩ := indexVli_ok h.src.left hv
  have hran := indexVli_ran h.src.left hv
  obtain ⟨t', ht', hread'⟩ := indexVli_of h.src.right hle (h.src.stream ▸ hread.stream)
  have hran' := indexVli_ran h.src.right ht'
  refine ⟨t', ht', ⟨hread.sound, hread'.sound, ?_⟩, ?_⟩
  · exact (hread'.rest (h.src.stream ▸ hread.stream)).symm
  · rw [hran', hran, h.rest]

theorem IndexRun.Same.records (h : r.Same t) {count : ℕ} {seen seen' : IndexFold K}
    (hr : indexRecords count r seen = .ok (r', seen')) :
    ∃ t', indexRecords count t seen = .ok (t', seen') ∧ r'.Same t' := by
  induction count generalizing r t seen with
  | zero =>
      cases hr
      exact ⟨t, rfl, h⟩
  | succ count ih =>
      rw [indexRecords] at hr
      obtain ⟨⟨unpadded, r₁⟩, ha, hr⟩ := bind_eq_ok hr
      obtain ⟨⟨uncompressed, r₂⟩, hb, hr⟩ := bind_eq_ok hr
      obtain ⟨t₁, ha', h₁⟩ := h.vli ha
      obtain ⟨t₂, hb', h₂⟩ := h₁.vli hb
      have hsize : t₂.size = r₂.size := by rw [h₂.rest]
      dsimp only at hr
      split at hr
      · cases hr
      next hge =>
        obtain ⟨seen₁, hpush, hr⟩ := bind_eq_ok hr
        split at hr
        · cases hr
        next hmax =>
          obtain ⟨t', ht', h'⟩ := ih h₂ hr
          refine ⟨t', ?_, h'⟩
          rw [indexRecords, ha', ok_bind]
          dsimp only
          rw [hb', ok_bind]
          dsimp only
          rw [if_neg hge, hpush, ok_bind, hsize, if_neg hmax]
          exact ht'

theorem IndexRun.Same.padding (h : r.Same t) {n : ℕ} (hr : indexPadding n r = .ok r') :
    ∃ t', indexPadding n t = .ok t' ∧ r'.Same t' := by
  induction n generalizing r t with
  | zero =>
      cases hr
      exact ⟨t, rfl, h⟩
  | succ n ih =>
      have hsize : t.size = r.size := by rw [h.rest]
      have hcrc : t.crc = r.crc := by rw [h.rest]
      rw [indexPadding] at hr ⊢
      rw [hsize, hcrc]
      split at hr
      next hz =>
        cases hr
        exact ⟨t, if_pos hz, h⟩
      next hz =>
        rw [if_neg hz]
        split at hr
        · cases hr
        next b src htake =>
          split at hr
          · cases hr
          next hb =>
            obtain ⟨src', htake', hsame⟩ := h.src.takeInto (by decide) htake
            rw [htake']
            dsimp only
            rw [if_neg hb]
            exact ih ⟨hsame, rfl⟩ hr

theorem index_same {s s' t : Source} (h : s.Same t) {folded : FoldTotals} {n : ℕ}
    (hs : index crc K s folded = .ok (s', n)) :
    ∃ t', index crc K t folded = .ok (t', n) ∧ s'.Same t' := by
  unfold index at hs ⊢
  obtain ⟨⟨count, r₁⟩, hcount, hs⟩ := bind_eq_ok hs
  have hstart : (⟨s, crc.update crc.new [0], 1⟩ : IndexRun crc).Same
      ⟨t, crc.update crc.new [0], 1⟩ := ⟨h, rfl⟩
  obtain ⟨t₁, hcount', h₁⟩ := hstart.vli hcount
  rw [hcount', ok_bind]
  dsimp only at hs ⊢
  split at hs
  · cases hs
  next heq =>
    rw [if_neg heq]
    obtain ⟨⟨r₂, seen⟩, hrecs, hs⟩ := bind_eq_ok hs
    obtain ⟨t₂, hrecs', h₂⟩ := h₁.records hrecs
    rw [hrecs', ok_bind]
    dsimp only at hs ⊢
    split at hs
    · cases hs
    next htotals =>
      rw [if_neg htotals]
      obtain ⟨r₃, hpadding, hs⟩ := bind_eq_ok hs
      obtain ⟨t₃, hpadding', h₃⟩ := h₂.padding hpadding
      rw [hpadding', ok_bind]
      split at hs
      · cases hs
      next stored src htake =>
        split at hs
        · cases hs
        next hstored =>
          cases hs
          obtain ⟨t', htake', hsame⟩ := h₃.src.takeInto (by decide) htake
          rw [htake']
          dsimp only
          rw [h₃.rest, if_neg hstored]
          exact ⟨t', rfl, hsame⟩

end
namespace XzReader
variable {C : Checks} {r r' t : XzReader C}

/-- Options that differ only in their limits. -/
structure SameBut (opts opts' : XzOptions) : Prop where
  memoryLimit : opts'.memoryLimit = opts.memoryLimit
  verifyChecks : opts'.verifyChecks = opts.verifyChecks
  allowUnverifiable : opts'.allowUnverifiable = opts.allowUnverifiable
  concatenated : opts'.concatenated = opts.concatenated
  sha : opts'.sha = opts.sha

/-- Readers of the same bytes that have come to the same place, outside a block or at its
first byte, whatever their limits are. -/
structure Like (r t : XzReader C) : Prop where
  src : r.src.Same t.src
  opts : SameBut r.opts t.opts
  rest : t = { r with src := t.src, opts := t.opts, dec := t.dec }
  tail : r.state = .blockTail → ∃ d d', r.dec = some d ∧ t.dec = some d' ∧
    d'.packed = d.packed ∧ d'.unpacked = d.unpacked ∧ C.finish d'.check = C.finish d.check
  entry : r.state = .block → ∃ d, r.dec = some d ∧
    t.dec = some { d with limits := { d.limits with maxBlockSize := t.blockCap } }

theorem take_same (h : r.src.Same t.src) {n : ℕ} (hn : n ≤ bufSize) {bytes : List UInt8}
    (hr : r.take n = .ok (bytes, r')) : ∃ s s', r' = { r with src := s } ∧
      t.take n = .ok (bytes, { t with src := s' }) ∧ s.Same s' := by
  unfold take at hr ⊢
  split at hr
  · cases hr
  next s hs =>
    cases hr
    obtain ⟨s', hs', hsame⟩ := h.takeInto hn hs
    rw [hs']
    exact ⟨s, s', rfl, rfl, hsame⟩

theorem Like.streamHeader (h : Like r t) (hr : r.streamHeader = .ok r') :
    ∃ t', t.streamHeader = .ok t' ∧ Like r' t' := by
  obtain ⟨src', opts', dec', rfl⟩ : ∃ src' opts' dec',
    t = { r with src := src', opts := opts', dec := dec' } := ⟨_, _, _, h.rest⟩
  unfold XzReader.streamHeader at hr ⊢
  obtain ⟨⟨buf, r₁⟩, htake, hr⟩ := bind_eq_ok hr
  obtain ⟨s, s', rfl, htake', hsame⟩ := take_same h.src (by decide) htake
  obtain ⟨flags, hflags, hr⟩ := bind_eq_ok hr
  have hopts : SameBut r.opts opts' := h.opts
  rw [htake', ok_bind]
  dsimp only at hr ⊢
  rw [hflags, ok_bind, hopts.verifyChecks, hopts.sha, hopts.allowUnverifiable]
  split at hr
  · cases hr
  next hv =>
    cases hr
    exact ⟨_, if_neg hv, hsame, hopts, rfl, (fun hs => by cases hs), fun hs => by cases hs⟩

/-- A new block takes only its limits from the caller's. -/
theorem new_like {chain : FilterChain} {check : CheckType} {offset : ℕ} {verify : Bool}
    {limits limits' : BlockLimits} {d : BlockDecoder C}
    (h : BlockDecoder.new chain check offset verify limits = .ok d)
    (hsame : limits' = { limits with maxBlockSize := limits'.maxBlockSize })
    (hle : ∀ n ∈ limits.uncompressedSize, n ≤ limits'.maxBlockSize) :
    BlockDecoder.new chain check offset verify limits' = .ok { d with limits := limits' } := by
  obtain ⟨m, rfl⟩ : ∃ m, limits' = { limits with maxBlockSize := m } := ⟨_, hsame⟩
  have hnot : ¬ limits.uncompressedSize.any (m < ·) = true := fun hany => by
    obtain ⟨n, hn, hlt⟩ := Option.any_eq_true _ _ |>.1 hany
    exact absurd (of_decide_eq_true hlt) (Nat.not_lt.2 (hle n hn))
  obtain ⟨-, hmemory, lzma2, converters, hlzma2, hbuild, rfl⟩ := BlockDecoder.new_ok h
  unfold BlockDecoder.new
  rw [if_neg hnot]
  dsimp only
  rw [if_neg (Nat.not_lt.2 hmemory), hlzma2]
  dsimp only
  rw [hbuild, ok_bind]

theorem Like.blockOrIndex (h : Like r t) (hr : r.blockOrIndex = .ok r')
    (hle : r'.state = .block → ∀ d ∈ r'.dec, ∀ n ∈ d.limits.uncompressedSize, n ≤ t.blockCap) :
    ∃ t', t.blockOrIndex = .ok t' ∧ Like r' t' := by
  obtain ⟨src', opts', dec', rfl⟩ : ∃ src' opts' dec',
    t = { r with src := src', opts := opts', dec := dec' } := ⟨_, _, _, h.rest⟩
  have hopts : SameBut r.opts opts' := h.opts
  unfold XzReader.blockOrIndex at hr ⊢
  obtain ⟨⟨first, r₁⟩, htake, hr⟩ := bind_eq_ok hr
  obtain ⟨s, s', rfl, htake', hsame⟩ := take_same h.src (by decide) htake
  rw [htake', ok_bind]
  dsimp only at hr ⊢
  split at hr
  · cases hr
    exact ⟨_, rfl, hsame, h.opts, rfl, (fun hs => by cases hs), fun hs => by cases hs⟩
  next size hsize =>
    obtain ⟨⟨rest, r₂⟩, htake₂, hr⟩ := bind_eq_ok hr
    obtain ⟨t₁, ht₁⟩ : ∃ t₁ : XzReader C, { r with src := s', opts := opts', dec := dec' } = t₁ :=
      ⟨_, rfl⟩
    have hsame₁ : s.Same t₁.src := by rw [← ht₁]; exact hsame
    obtain ⟨s₂, s₂', rfl, htake₂', hsame₂⟩ := take_same hsame₁ (headerSize_le hsize) htake₂
    obtain ⟨header, hheader, hr⟩ := bind_eq_ok hr
    obtain ⟨dec, hdec, hr⟩ := bind_eq_ok hr
    cases hr
    have hnew : BlockDecoder.new header.chain r.flags.check r.totalOut r.opts.verifyChecks
      (r.blockLimits header) = .ok dec := fail_ok hdec
    have hold : dec.limits = r.blockLimits header := by
      obtain ⟨-, -, lzma2, converters, -, -, rfl⟩ := BlockDecoder.new_ok hnew
      rfl
    obtain ⟨limits, hlimits⟩ : ∃ limits, ({ r.blockLimits header with
      maxBlockSize := blockCap { r with src := src', opts := opts', dec := dec' } } :
        BlockLimits) = limits := ⟨_, rfl⟩
    have hnew' := new_like hnew
      (show limits = { r.blockLimits header with maxBlockSize := limits.maxBlockSize } by
        rw [← hlimits])
      (fun n hn => by
        rw [← hlimits]
        rw [← hold] at hn
        exact hle rfl dec rfl n hn)
    rw [← ht₁] at htake₂'
    dsimp only at htake₂'
    rw [htake₂', ok_bind]
    dsimp only
    rw [hheader, ok_bind, hopts.verifyChecks, hopts.memoryLimit]
    subst hlimits
    refine ⟨_, (congrArg (fun x => fail x >>= _) hnew').trans rfl, hsame₂, hopts, rfl,
      (fun hs => by cases hs), fun _ => ⟨dec, rfl, ?_⟩⟩
    rw [hold]
    rfl

theorem Like.blockTail (h : Like r t) (hs : r.state = .blockTail)
    (hle : r.tailLeft ≤ bufSize) (hr : r.blockTail = .ok r') :
    ∃ t', t.blockTail = .ok t' ∧ Like r' t' := by
  obtain ⟨d, d', hd, hd', hpacked, hunpacked, hfinish⟩ := h.tail hs
  obtain ⟨src', opts', dec', rfl⟩ : ∃ src' opts' dec',
    t = { r with src := src', opts := opts', dec := dec' } := ⟨_, _, _, h.rest⟩
  cases hd'
  unfold XzReader.blockTail at hr ⊢
  obtain ⟨⟨buf, r₁⟩, htake, hr⟩ := bind_eq_ok hr
  obtain ⟨s, s', rfl, htake', hsame⟩ := take_same h.src hle htake
  obtain ⟨padding, hpadding, hr⟩ := bind_eq_ok hr
  dsimp only at hr htake' ⊢
  rw [htake', ok_bind]
  dsimp only
  rw [hpadding, ok_bind]
  split at hr
  · cases hr
  next hzero =>
    rw [hd] at hr
    obtain ⟨u, hcheck, hr⟩ := bind_eq_ok hr
    obtain ⟨fold, hfold, hr⟩ := bind_eq_ok hr
    cases hr
    rw [if_neg hzero, hfinish, hcheck, ok_bind, hpacked, hunpacked, hfold, ok_bind]
    exact ⟨_, rfl, hsame, h.opts, rfl, (fun hs => by cases hs), fun hs => by cases hs⟩

theorem Like.indexTurn (h : Like r t) (hr : r.indexTurn = .ok r') :
    ∃ t', t.indexTurn = .ok t' ∧ Like r' t' := by
  obtain ⟨src', opts', dec', rfl⟩ : ∃ src' opts' dec',
    t = { r with src := src', opts := opts', dec := dec' } := ⟨_, _, _, h.rest⟩
  unfold XzReader.indexTurn at hr ⊢
  obtain ⟨⟨s, size⟩, hindex, hr⟩ := bind_eq_ok hr
  cases hr
  obtain ⟨s', hindex', hsame⟩ := index_same h.src (fail_ok hindex)
  dsimp only
  rw [hindex']
  exact ⟨_, rfl, hsame, h.opts, rfl, (fun hs => by cases hs), fun hs => by cases hs⟩

theorem Like.footer (h : Like r t) (hr : r.footer = .ok r') :
    ∃ t', t.footer = .ok t' ∧ Like r' t' := by
  obtain ⟨src', opts', dec', rfl⟩ : ∃ src' opts' dec',
    t = { r with src := src', opts := opts', dec := dec' } := ⟨_, _, _, h.rest⟩
  unfold XzReader.footer at hr ⊢
  obtain ⟨⟨buf, r₁⟩, htake, hr⟩ := bind_eq_ok hr
  obtain ⟨s, s', rfl, htake', hsame⟩ := take_same h.src (by decide) htake
  obtain ⟨foot, hfoot, hr⟩ := bind_eq_ok hr
  rw [htake', ok_bind]
  dsimp only at hr ⊢
  rw [hfoot, ok_bind]
  split at hr
  · cases hr
  next hflags =>
    split at hr
    · cases hr
    next hindex =>
      cases hr
      rw [if_neg hflags, if_neg hindex]
      exact ⟨_, rfl, hsame, h.opts, rfl, (fun hs => by cases hs), fun hs => by cases hs⟩

theorem Like.padding (h : Like r t) {fuel fuel' : ℕ} (hr : r.padding fuel = .ok r') :
    t.padding fuel' = .error .fuel ∨ ∃ t', t.padding fuel' = .ok t' ∧ Like r' t' := by
  induction fuel generalizing r t fuel' with
  | zero => cases hr
  | succ fuel ih =>
      cases fuel' with
      | zero => exact .inl rfl
      | succ fuel' =>
          obtain ⟨src', opts', dec', rfl⟩ : ∃ src' opts' dec',
            t = { r with src := src', opts := opts', dec := dec' } := ⟨_, _, _, h.rest⟩
          obtain ⟨hsame, htake⟩ := h.src.fillAtLeast (show 4 ≤ bufSize by decide)
          have hopts : opts'.concatenated = r.opts.concatenated := h.opts.concatenated
          have hlen := congrArg List.length htake
          rw [List.length_take, List.length_take] at hlen
          rw [XzReader.padding] at hr ⊢
          dsimp only at hr hsame htake hlen ⊢
          rw [hopts]
          split at hr
          next hempty =>
            cases hr
            rw [hempty] at hlen
            have hempty' : (src'.fillAtLeast 4).avail = [] :=
              List.eq_nil_of_length_eq_zero (by rw [List.length_nil] at hlen; omega)
            rw [if_pos hempty']
            exact .inr ⟨_, rfl, hsame, h.opts, rfl, (fun hs => by cases hs), fun hs => by cases hs⟩
          next hne =>
            have hne' : ¬ (src'.fillAtLeast 4).avail = [] := fun hempty' => by
              rw [hempty', List.length_nil] at hlen
              have := List.length_pos_of_ne_nil hne
              omega
            rw [if_neg hne']
            split at hr
            · cases hr
            next hone =>
              rw [if_neg hone]
              split at hr
              · cases hr
              next hshort =>
                rw [if_neg (show ¬ (src'.fillAtLeast 4).avail.length < 4 by omega), ← htake]
                split at hr
                next hzero =>
                  rw [if_pos hzero]
                  have hrest : ((r.src.fillAtLeast 4).consume 4).Same
                      ((src'.fillAtLeast 4).consume 4) := by
                    refine ⟨Source.consume_sound hsame.left 4, Source.consume_sound hsame.right 4,
                      ?_⟩
                    rw [Source.consume_stream _ (Nat.le_of_not_lt hshort),
                      Source.consume_stream _ (by omega), hsame.stream]
                  have hnext : Like { r with src := (r.src.fillAtLeast 4).consume 4 }
                      { r with
                        src := (src'.fillAtLeast 4).consume 4, opts := opts', dec := dec' } :=
                    ⟨hrest, h.opts, rfl, h.tail, h.entry⟩
                  exact ih hnext hr
                next hzero =>
                  cases hr
                  rw [if_neg hzero]
                  exact .inr ⟨_, rfl, hsame, h.opts, rfl, (fun hs => by cases hs),
                    fun hs => by cases hs⟩

/-- What one of them comes to outside a block the other comes to, if its limits allow what a
header declares. -/
theorem Like.turn (h : Like r t) (hr : r.Sound) {fuel fuel' : ℕ} (hblock : r.state ≠ .block)
    (hdone : r.state ≠ .done) (ht : r.turn fuel = .ok r')
    (hle : r'.state = .block → ∀ d ∈ r'.dec, ∀ n ∈ d.limits.uncompressedSize, n ≤ t.blockCap) :
    t.turn fuel' = .error .fuel ∨ ∃ t', t.turn fuel' = .ok t' ∧ Like r' t' := by
  have hstate : t.state = r.state := by rw [h.rest]
  unfold XzReader.turn at ht ⊢
  rw [hstate]
  cases hs : r.state with
  | block => exact absurd hs hblock
  | done => exact absurd hs hdone
  | streamHeader =>
      rw [hs] at ht
      exact .inr (h.streamHeader ht)
  | blockOrIndex =>
      rw [hs] at ht
      exact .inr (h.blockOrIndex ht hle)
  | blockTail =>
      rw [hs] at ht
      exact .inr (h.blockTail hs (hr.tailLeft.trans (by decide)) ht)
  | index =>
      rw [hs] at ht
      exact .inr (h.indexTurn ht)
  | footer =>
      rw [hs] at ht
      exact .inr (h.footer ht)
  | padding =>
      rw [hs] at ht
      exact h.padding ht

end XzReader
end LzmaTurbo.Xz
