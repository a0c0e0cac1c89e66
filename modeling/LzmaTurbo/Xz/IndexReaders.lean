import LzmaTurbo.Xz.IndexLaws

/-!
# The readers and the parser agree

The sequential reader is followed through its source, and an attempt of the adaptive decoder
is the same reading of a source that has everything buffered.
-/
namespace LzmaTurbo.Xz
open LzmaTurbo.Crc Machine Vli

variable {crc : Digest UInt32} {K : Digest UInt64}

theorem foldRecords_count {f f' : IndexFold K} {rs : List XzIndexRecord}
    (h : foldRecords f rs = .ok f') : f'.count = f.count + rs.length := by
  induction rs generalizing f with
  | nil =>
      cases h
      rfl
  | cons r rs ih =>
      rw [foldRecords] at h
      split at h
      · cases h
      next f₁ hpush =>
        have hcount : f₁.count = f.count + 1 := by
          unfold IndexFold.push at hpush
          split at hpush
          · cases hpush
          · split at hpush
            · cases hpush
            · split at hpush
              · cases hpush
              · cases hpush
                rfl
        rw [ih h, hcount, List.length_cons]
        omega

/-- The fold of all the records closes to what the blocks were folded to. -/
def FoldsTo (K : Digest UInt64) (rs : List XzIndexRecord) (folded : FoldTotals) : Prop :=
  ∃ f, foldRecords (IndexFold.default K) rs = .ok f ∧ f.finish = folded

namespace XzReader

/-- Some bytes have been read. -/
structure Read (r : IndexRun crc) (bytes : List UInt8) (r' : IndexRun crc) : Prop where
  stream : r.src.stream = bytes ++ r'.src.stream
  sound : r'.src.Sound
  size : r'.size = r.size + bytes.length
  fed : ∀ before, crc.Fed r.crc before → crc.Fed r'.crc (before ++ bytes)

theorem Read.refl {r : IndexRun crc} (h : r.src.Sound) : Read r [] r where
  stream := rfl
  sound := h
  size := rfl
  fed := fun before hf => by rwa [List.append_nil]

theorem Read.trans {r r' r'' : IndexRun crc} {bytes bytes' : List UInt8} (h : Read r bytes r')
    (h' : Read r' bytes' r'') : Read r (bytes ++ bytes') r'' where
  stream := by rw [h.stream, h'.stream, List.append_assoc]
  sound := h'.sound
  size := by rw [h'.size, h.size, List.length_append, Nat.add_assoc]
  fed := fun before hf => by
    rw [← List.append_assoc]
    exact h'.fed _ (h.fed _ hf)

theorem Read.rest {r r' : IndexRun crc} {bytes tail : List UInt8} (h : Read r bytes r')
    (hs : r.src.stream = bytes ++ tail) : r'.src.stream = tail :=
  List.append_cancel_left (h.stream.symm.trans hs)

theorem indexVli_ok {r r' : IndexRun crc} {v : ℕ} (h : r.src.Sound)
    (hv : indexVli r = .ok (v, r')) : v ≤ vliMax ∧ Read r (encodeLoop v) r' := by
  have hfill := Source.fillAtLeast_filled h (show vliMaxBytes ≤ bufSize by decide)
  unfold indexVli at hv
  dsimp only at hv
  split at hv
  · cases hv
  next value len hdec =>
    cases hv
    obtain ⟨hle, hn, hbytes⟩ := decode_ok_iff.1 hdec
    have hlen : len ≤ (r.src.fillAtLeast vliMaxBytes).avail.length := by
      have h := congrArg List.length hbytes
      rw [List.length_append, ← hn] at h
      omega
    have htake : (r.src.fillAtLeast vliMaxBytes).avail.take len = encodeLoop v := by
      rw [hbytes, hn, List.take_left]
    refine ⟨hle, ?_, Source.consume_sound hfill.sound len, by rw [hn], fun before hf => ?_⟩
    · rw [Source.consume_stream _ hlen, ← hfill.stream]
      unfold Source.stream
      rw [List.drop_append_of_le_length hlen, ← List.append_assoc, ← hbytes]
    · rw [htake]
      exact hf.update _

theorem indexVli_of {r : IndexRun crc} {v : ℕ} {tail : List UInt8} (h : r.src.Sound)
    (hv : v ≤ vliMax) (hs : r.src.stream = encodeLoop v ++ tail) :
    ∃ r', indexVli r = .ok (v, r') ∧ Read r (encodeLoop v) r' := by
  have hnine : (encodeLoop v).length ≤ vliMaxBytes := by
    rw [← encodeLoop_length]
    exact encodedLen_le hv
  have hfill := Source.fillAtLeast_filled h (show vliMaxBytes ≤ bufSize by decide)
  obtain ⟨more, hmore⟩ := hfill.avail hs hnine
  have hdec : decode (r.src.fillAtLeast vliMaxBytes).avail =
      .ok (v, (encodeLoop v).length) := by
    rw [hmore]
    exact decode_encoded hv more
  have hok : ∃ r', indexVli r = .ok (v, r') := by
    unfold indexVli
    dsimp only
    rw [hdec]
    exact ⟨_, rfl⟩
  obtain ⟨r', hr'⟩ := hok
  exact ⟨r', hr', (indexVli_ok h hr').2⟩

theorem indexRecords_ok {count : ℕ} {r r' : IndexRun crc} {seen seen' : IndexFold K}
    (h : r.src.Sound) (hr : indexRecords count r seen = .ok (r', seen')) :
    ∃ rs : List XzIndexRecord, rs.length = count ∧ (∀ x ∈ rs, x.Valid) ∧
      foldRecords seen rs = .ok seen' ∧ Read r (recordsBytes rs) r' := by
  induction count generalizing r seen with
  | zero =>
      cases hr
      exact ⟨[], rfl, (fun x hx => nomatch hx), rfl, .refl h⟩
  | succ count ih =>
      rw [indexRecords] at hr
      obtain ⟨⟨unpadded, r₁⟩, ha, hr⟩ := bind_ok_iff.1 hr
      obtain ⟨⟨uncompressed, r₂⟩, hb, hr⟩ := bind_ok_iff.1 hr
      obtain ⟨hu, hread₁⟩ := indexVli_ok h ha
      obtain ⟨hc, hread₂⟩ := indexVli_ok hread₁.sound hb
      dsimp only at hr
      split at hr
      · cases hr
      next hge =>
        obtain ⟨seen₁, hpush, hr⟩ := bind_ok_iff.1 hr
        split at hr
        · cases hr
        · obtain ⟨rs, hlen, hvalid, hfold, hread⟩ := ih hread₂.sound hr
          refine ⟨⟨unpadded, uncompressed⟩ :: rs, congrArg (· + 1) hlen, ?_, ?_, ?_⟩
          · intro x hx
            rcases List.mem_cons.1 hx with rfl | hx
            · exact ⟨Nat.not_lt.1 hge, hu, hc⟩
            · exact hvalid x hx
          · rw [foldRecords, hpush]
            exact hfold
          · have hall := (hread₁.trans hread₂).trans hread
            exact hall

theorem indexRecords_of {rs : List XzIndexRecord} {r : IndexRun crc} {seen seen' : IndexFold K}
    {tail : List UInt8} (h : r.src.Sound) (hvalid : ∀ x ∈ rs, x.Valid)
    (hfold : foldRecords seen rs = .ok seen') (hs : r.src.stream = recordsBytes rs ++ tail)
    (hsize : r.size + (recordsBytes rs).length ≤ maxIndexSize) :
    ∃ r', indexRecords rs.length r seen = .ok (r', seen') ∧ Read r (recordsBytes rs) r' := by
  induction rs generalizing r seen with
  | nil =>
      cases hfold
      exact ⟨r, rfl, .refl h⟩
  | cons x rs ih =>
      have hx := hvalid x List.mem_cons_self
      have hlen := congrArg List.length (recordsBytes_cons x rs [])
      rw [List.append_nil, List.append_nil, List.length_append, List.length_append] at hlen
      rw [recordsBytes_cons] at hs
      obtain ⟨r₁, ha, hread₁⟩ := indexVli_of h hx.unpadded_le hs
      obtain ⟨r₂, hb, hread₂⟩ := indexVli_of hread₁.sound hx.uncompressed_le (hread₁.rest hs)
      rw [foldRecords] at hfold
      split at hfold
      · cases hfold
      next seen₁ hpush =>
        have hsize₂ := (hread₁.trans hread₂).size
        rw [List.length_append] at hsize₂
        obtain ⟨r', hr', hread⟩ := ih hread₂.sound (fun y hy => hvalid y (List.mem_cons_of_mem x hy))
          hfold (hread₂.rest (hread₁.rest hs)) (by omega)
        refine ⟨r', ?_, (hread₁.trans hread₂).trans hread⟩
        rw [List.length_cons, indexRecords, ha, ok_bind]
        dsimp only
        rw [hb, ok_bind]
        dsimp only
        rw [if_neg (Nat.not_lt.2 hx.unpadded_ge), hpush, ok_bind, if_neg (by omega)]
        exact hr'

theorem indexPadding_ok {n : ℕ} {r r' : IndexRun crc} (h : r.src.Sound) (hn : padTo4 r.size ≤ n)
    (hr : indexPadding n r = .ok r') : Read r (List.replicate (padTo4 r.size) 0) r' := by
  induction n generalizing r with
  | zero =>
      cases hr
      rw [Nat.le_zero.1 hn]
      exact .refl h
  | succ n ih =>
      rw [indexPadding] at hr
      have hpad := padTo4_spec r.size
      split at hr
      next hz =>
        have hzero : padTo4 r.size = 0 := by
          unfold padTo4
          omega
        cases hr
        rw [hzero]
        exact .refl h
      next hz =>
        split at hr
        · cases hr
        next b src htake =>
          split at hr
          · cases hr
          next hb =>
            obtain ⟨hlen, hstream, hsound, -⟩ := Source.takeInto_of_some h (by decide) htake
            have hnext : padTo4 r.size = padTo4 (r.size + 1) + 1 := by
              unfold padTo4
              omega
            have hrest := ih (r := ⟨src, crc.update r.crc b, r.size + 1⟩) hsound
              (by show padTo4 (r.size + 1) ≤ n; omega) hr
            have hone : Read r b ⟨src, crc.update r.crc b, r.size + 1⟩ :=
              ⟨hstream, hsound, by rw [hlen], fun before hf => hf.update b⟩
            rw [not_not.1 hb] at hone hrest
            rw [hnext, List.replicate_succ]
            exact hone.trans hrest

theorem indexPadding_of {n : ℕ} {r : IndexRun crc} {tail : List UInt8} (h : r.src.Sound)
    (hn : padTo4 r.size ≤ n) (hs : r.src.stream = List.replicate (padTo4 r.size) 0 ++ tail) :
    ∃ r', indexPadding n r = .ok r' := by
  induction n generalizing r with
  | zero => exact ⟨r, rfl⟩
  | succ n ih =>
      rw [indexPadding]
      split
      · exact ⟨r, rfl⟩
      next hz =>
        have hnext : padTo4 r.size = padTo4 (r.size + 1) + 1 := by
          unfold padTo4
          omega
        rw [hnext, List.replicate_succ] at hs
        obtain ⟨src, htake, hrest, hsound, -⟩ := Source.takeInto_some h [0] hs
          (by decide)
        have htake : r.src.takeInto 1 = some ([0], src) := htake
        rw [htake]
        dsimp only
        rw [if_neg (not_not.2 rfl)]
        exact ih hsound (by show padTo4 (r.size + 1) ≤ n; omega) hrest

/-- What the sequential reader accepts, whatever the portions of its source. -/
theorem index_ok (hcrc : crc.Streams) {src src' : Source} (h : src.Sound) {folded : FoldTotals}
    {n : ℕ} (hok : index crc K src folded = .ok (src', n)) :
    ∃ rs bytes, IsIndex crc rs (0 :: bytes) ∧ FoldsTo K rs folded ∧
      src.stream = bytes ++ src'.stream ∧ n = bytes.length + 1 := by
  have hfed : crc.Fed (crc.update crc.new [0]) [0] := Digest.Fed.new.update [0]
  unfold index at hok
  obtain ⟨⟨count, r₁⟩, hcount, hok⟩ := bind_ok_iff.1 hok
  obtain ⟨hle, hread₁⟩ := indexVli_ok h hcount
  dsimp only at hok
  split at hok
  · cases hok
  next heq =>
    obtain ⟨⟨r₂, seen⟩, hrecs, hok⟩ := bind_ok_iff.1 hok
    obtain ⟨rs, hlen, hvalid, hfold, hread₂⟩ := indexRecords_ok hread₁.sound hrecs
    dsimp only at hok
    split at hok
    · cases hok
    next htotals =>
      obtain ⟨r₃, hpadding, hok⟩ := bind_ok_iff.1 hok
      have hread₃ := indexPadding_ok hread₂.sound (padTo4_spec _).1 hpadding
      split at hok
      · cases hok
      next stored src₄ htake =>
        split at hok
        · cases hok
        next hstored =>
          cases hok
          obtain ⟨hfour, hstream, -, -⟩ := Source.takeInto_of_some hread₃.sound (by decide) htake
          have hread := hread₁.trans hread₂
          have hsize : r₂.size = (indexBody rs).length := by
            rw [hread.size, ← hlen]
            exact Nat.add_comm _ _
          rw [hsize] at hread₃
          have hall := hread.trans hread₃
          subst hlen
          refine ⟨rs, encodeLoop rs.length ++ recordsBytes rs ++
            List.replicate (padTo4 (indexBody rs).length) 0 ++ stored,
            ⟨hle, hvalid, stored, hfour, ?_, rfl⟩, ?_, ?_, ?_⟩
          · rw [← not_not.1 hstored, (hall.fed [0] hfed).finalize hcrc]
            rfl
          · refine ⟨seen, hfold, ?_⟩
            have hcount' : seen.count = folded.count := by
              rw [foldRecords_count hfold, not_not.1 heq]
              exact Nat.zero_add _
            obtain ⟨h₁, h₂⟩ := not_or.1 htotals
            obtain ⟨h₂, h₃⟩ := not_or.1 h₂
            cases folded
            exact FoldTotals.mk.injEq .. ▸ ⟨hcount', not_not.1 h₂, not_not.1 h₃, not_not.1 h₁⟩
          · rw [List.append_assoc, ← hstream]
            exact hall.stream
          · have hone : (⟨src, crc.update crc.new [0], 1⟩ : IndexRun crc).size = 1 := rfl
            have hsize := hall.size
            simp only [List.length_append] at hsize
            simp only [List.length_append, hfour]
            omega

/-- And what it does not refuse. -/
theorem index_of (hcrc : crc.Streams) {src : Source} (h : src.Sound) {folded : FoldTotals}
    {rs : List XzIndexRecord} {bytes tail : List UInt8} (hindex : IsIndex crc rs (0 :: bytes))
    (hfolds : FoldsTo K rs folded) (hs : src.stream = bytes ++ tail)
    (hmax : bytes.length + 1 ≤ maxIndexSize) :
    ∃ src', index crc K src folded = .ok (src', bytes.length + 1) ∧ src'.stream = tail := by
  have hfed : crc.Fed (crc.update crc.new [0]) [0] := Digest.Fed.new.update [0]
  obtain ⟨hle, hvalid, stored, hfour, hcheck, hbytes⟩ := hindex
  obtain ⟨f, hfold, hfin⟩ := hfolds
  have hpad : padTo4 (indexBody rs).length ≤ 3 := (padTo4_spec _).1
  have hform : bytes = encodeLoop rs.length ++ (recordsBytes rs ++
      (List.replicate (padTo4 (indexBody rs).length) 0 ++ stored)) := by
    have h : bytes = encodeLoop rs.length ++ recordsBytes rs ++
        List.replicate (padTo4 (indexBody rs).length) 0 ++ stored := (List.cons.inj hbytes).2
    rw [h, List.append_assoc, List.append_assoc]
  rw [hform, List.append_assoc, List.append_assoc, List.append_assoc] at hs
  have hlens := congrArg List.length hform
  rw [List.length_append, List.length_append, List.length_append, hfour] at hlens
  have hrun : (⟨src, crc.update crc.new [0], 1⟩ : IndexRun crc).src.Sound := h
  obtain ⟨r₁, hcount, hread₁⟩ := indexVli_of hrun hle hs
  have hsize₁ : r₁.size = 1 + (encodeLoop rs.length).length := hread₁.size
  obtain ⟨r₂, hrecs, hread₂⟩ := indexRecords_of hread₁.sound hvalid hfold (hread₁.rest hs)
    (by omega)
  have hread := hread₁.trans hread₂
  have hsize : r₂.size = (indexBody rs).length := by
    rw [hread.size]
    exact Nat.add_comm _ _
  have hrest₂ := hread₂.rest (hread₁.rest hs)
  rw [← hsize] at hrest₂ hpad
  obtain ⟨r₃, hpadding⟩ := indexPadding_of hread₂.sound hpad hrest₂
  have hread₃ := indexPadding_ok hread₂.sound hpad hpadding
  obtain ⟨src', htake, htail, -⟩ := Source.takeInto_some hread₃.sound _ (hread₃.rest hrest₂)
    (by rw [hfour]; decide)
  rw [hfour] at htake
  rw [hsize] at hread₃
  have hall := hread.trans hread₃
  have hcrc' : crc.finalize r₃.crc = fromLeBytes stored := by
    rw [(hall.fed [0] hfed).finalize hcrc, hcheck]
    rfl
  have hcountOk : rs.length = folded.count := by
    rw [← hfin]
    exact ((foldRecords_count hfold).trans (Nat.zero_add _)).symm
  refine ⟨src', ?_, htail⟩
  unfold index
  rw [hcount, ok_bind]
  dsimp only
  rw [if_neg (not_not.2 hcountOk), hrecs, ok_bind]
  dsimp only
  rw [hfin, if_neg (by simp), hpadding, ok_bind, htake]
  dsimp only
  rw [if_neg (not_not.2 hcrc')]
  have hn' : r₃.size + 4 = bytes.length + 1 := by
    have h₁ := hread₃.size
    rw [List.length_replicate] at h₁
    have h₂ := hread.size
    rw [List.length_append] at h₂
    rw [List.length_replicate] at hlens
    have h₃ : (⟨src, crc.update crc.new [0], 1⟩ : IndexRun crc).size = 1 := rfl
    omega
  rw [hn']

end XzReader

namespace XzAdaptiveDecoder

/-- A source with all of some bytes buffered, of which a part is used. -/
def buffered (body : List UInt8) (pos : ℕ) : Source := ⟨body.drop pos, [], [], true, pos⟩

/-- An attempt as a reading of such a source. -/
def IndexTry.asRun (body : List UInt8) (t : IndexTry crc) : IndexRun crc :=
  ⟨buffered body t.pos, t.crc, t.size⟩

theorem buffered_sound (body : List UInt8) (pos : ℕ) : (buffered body pos).Sound := fun _ => rfl

theorem buffered_fill (body : List UInt8) (pos n : ℕ) :
    (buffered body pos).fillAtLeast n = buffered body pos := by
  unfold Source.fillAtLeast buffered Source.fillLoop
  exact if_pos (Or.inr rfl)

theorem buffered_consume (body : List UInt8) (pos n : ℕ) :
    (buffered body pos).consume n = buffered body (pos + n) := by
  unfold Source.consume buffered
  rw [List.drop_drop]

/-- The two succeed together, and the reader's result is read off the attempt's. -/
def Agrees {α β : Type} (f : α → β) (x : Except IndexStop α) (y : Except XzErrorKind β) : Prop :=
  match x with
  | .ok a => y = .ok (f a)
  | .error _ => ∃ k, y = .error k

theorem Agrees.bind {α β γ δ : Type} {f : α → β} {g : γ → δ} {x : Except IndexStop α}
    {y : Except XzErrorKind β} {k : α → Except IndexStop γ} {l : β → Except XzErrorKind δ}
    (h : Agrees f x y) (hk : ∀ a, Agrees g (k a) (l (f a))) : Agrees g (x >>= k) (y >>= l) := by
  cases x with
  | ok a =>
      have hy : y = .ok (f a) := h
      rw [hy]
      exact hk a
  | error e =>
      obtain ⟨e', hy⟩ := h
      exact ⟨e', by rw [hy]; rfl⟩

theorem takeVli_agrees (body : List UInt8) (t : IndexTry crc) :
    Agrees (fun a : ℕ × IndexTry crc => (a.1, IndexTry.asRun body a.2)) (takeVli body t)
      (XzReader.indexVli (IndexTry.asRun body t)) := by
  have hfill : (IndexTry.asRun body t).src.fillAtLeast vliMaxBytes = buffered body t.pos :=
    buffered_fill body t.pos vliMaxBytes
  have havail : (buffered body t.pos).avail = body.drop t.pos := rfl
  unfold XzReader.indexVli takeVli
  rw [hfill]
  dsimp only
  rw [havail]
  cases hdec : decode (body.drop t.pos) with
  | error k =>
      cases k <;> exact ⟨_, rfl⟩
  | ok a =>
      have hconsume := buffered_consume body t.pos a.2
      change Except.ok (a.1, (⟨(buffered body t.pos).consume a.2, _, _⟩ : IndexRun crc)) = _
      rw [hconsume]
      rfl

theorem tryRecords_agrees (body : List UInt8) (count : ℕ) (t : IndexTry crc) (seen : IndexFold K) :
    Agrees (fun a : IndexTry crc × IndexFold K => (IndexTry.asRun body a.1, a.2))
      (tryRecords body count t seen)
      (XzReader.indexRecords count (IndexTry.asRun body t) seen) := by
  induction count generalizing t seen with
  | zero => exact rfl
  | succ count ih =>
      rw [tryRecords, XzReader.indexRecords]
      refine (takeVli_agrees body t).bind fun a => (takeVli_agrees body a.2).bind fun b => ?_
      dsimp only
      split
      · exact ⟨_, rfl⟩
      · cases hpush : seen.push a.1 b.1 with
        | error k => exact ⟨_, rfl⟩
        | ok seen =>
            change Agrees _ (if maxIndexSize < b.2.size then _ else _)
              (if maxIndexSize < b.2.size then _ else _)
            split
            · exact ⟨_, rfl⟩
            · exact ih b.2 seen

theorem tryPadding_agrees (body : List UInt8) (n : ℕ) (t : IndexTry crc) :
    Agrees (IndexTry.asRun body) (tryPadding body n t)
      (XzReader.indexPadding n (IndexTry.asRun body t)) := by
  induction n generalizing t with
  | zero => exact rfl
  | succ n ih =>
      obtain ⟨pos, size, c⟩ := t
      change Agrees _ _ (XzReader.indexPadding (n + 1) ⟨buffered body pos, c, size⟩)
      rw [tryPadding, XzReader.indexPadding]
      dsimp only
      by_cases hz : size % 4 = 0
      · rw [if_pos hz, if_pos hz]
        exact rfl
      · rw [if_neg hz, if_neg hz]
        have htake : (buffered body pos).takeInto 1 =
            if (body.drop pos).length < 1 then none
            else some ((body.drop pos).take 1, buffered body (pos + 1)) := by
          unfold Source.takeInto
          rw [buffered_fill]
          change (if (body.drop pos).length < 1 then none
            else some ((body.drop pos).take 1, (buffered body pos).consume 1)) = _
          rw [buffered_consume]
        rw [htake]
        cases hb : body[pos]? with
        | none =>
            have hle := List.getElem?_eq_none_iff.1 hb
            rw [if_pos (by rw [List.length_drop]; omega)]
            exact ⟨_, rfl⟩
        | some b =>
            obtain ⟨hlt, hget⟩ := List.getElem?_eq_some_iff.1 hb
            have hone : (body.drop pos).take 1 = [b] := by
              rw [List.drop_eq_getElem_cons hlt, hget]
              rfl
            rw [if_neg (by rw [List.length_drop]; omega), hone]
            dsimp only
            by_cases hz : b = 0
            · subst hz
              rw [if_neg (not_not.2 rfl), if_neg (not_not.2 rfl)]
              exact ih _
            · rw [if_pos hz, if_pos fun h => hz (List.cons.inj h).1]
              exact ⟨_, rfl⟩

/-- An attempt does what the sequential reader does with the same bytes. -/
theorem tryIndex_agrees (crc : Digest UInt32) (K : Digest UInt64) (body : List UInt8)
    (folded : FoldTotals) :
    Agrees (fun a : ℕ × ℕ => (buffered body a.1, a.2)) (tryIndex crc K body folded)
      (XzReader.index crc K (buffered body 0) folded) := by
  unfold tryIndex XzReader.index
  refine (takeVli_agrees body ⟨0, 1, crc.update crc.new [0]⟩).bind fun a => ?_
  dsimp only
  split
  · exact ⟨_, rfl⟩
  · refine (tryRecords_agrees body a.1 a.2 (IndexFold.default K)).bind fun b => ?_
    dsimp only
    split
    · exact ⟨_, rfl⟩
    · refine (tryPadding_agrees body 3 b.1).bind fun t => ?_
      have htake : (buffered body t.pos).takeInto 4 =
          if body.length < t.pos + 4 then none
          else some ((body.drop t.pos).take 4, buffered body (t.pos + 4)) := by
        unfold Source.takeInto
        rw [buffered_fill]
        change (if (body.drop t.pos).length < 4 then none
          else some ((body.drop t.pos).take 4, (buffered body t.pos).consume 4)) = _
        rw [buffered_consume, List.length_drop]
        by_cases hlt : body.length < t.pos + 4
        · rw [if_pos hlt, if_pos (by omega)]
        · rw [if_neg hlt, if_neg (by omega)]
      dsimp only [IndexTry.asRun]
      rw [htake]
      by_cases hlt : body.length < t.pos + 4
      · rw [if_pos hlt, if_pos hlt]
        exact ⟨_, rfl⟩
      · rw [if_neg hlt, if_neg hlt]
        change Agrees _ _ (if crc.finalize t.crc ≠ _ then _ else _)
        split
        · exact ⟨_, rfl⟩
        · exact rfl

end XzAdaptiveDecoder
end LzmaTurbo.Xz
