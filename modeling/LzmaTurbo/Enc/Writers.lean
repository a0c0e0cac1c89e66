import LzmaTurbo.Enc.XzStream
import LzmaTurbo.Mt.ChecksumTiles

/-!
# What the writers hand over
-/
namespace LzmaTurbo.Enc
open WriteAdapter

/-- A refused write changes nothing but how far the held output has come. -/
theorem Lzma2Writer.write_refused {P : Lzma2Parts} {w w' : Lzma2Writer P}
    {inner inner' : Outlet UInt8} {data : List UInt8}
    (h : w.write inner data = (w', inner', .refused)) :
    { w' with out := w.out } = w ∧ inner'.accepted ++ w'.out = inner.accepted ++ w.out := by
  unfold write at h
  dsimp only at h
  split at h
  next hout =>
    rcases accept_alike hout (w.drain inner).2 data with
      ⟨_, _, _, _, hr, -⟩ | ⟨_, _, _, _, _, hr, -⟩ <;> simp [hr] at h
  next hout =>
    cases h
    exact ⟨rfl, w.drain_sent inner⟩

/-- As for the raw writer; the encoder's own buffer has joined what is held. -/
theorem XzWriter.write_refused {P : XzParts} {w w' : XzWriter P} {inner inner' : Outlet UInt8}
    {data : List UInt8} (h : w.write inner data = (w', inner', .refused)) :
    { w'.enc with out := w.enc.out } = w.enc ∧
      inner'.accepted ++ w'.out = inner.accepted ++ w.out ++ w.enc.out ∧ w'.enc.out = [] := by
  unfold write at h
  dsimp only at h
  split at h
  next hout =>
    rcases accept_alike hout (w.drain inner).2 data with
      ⟨_, _, _, _, hr, -⟩ | ⟨_, _, _, _, _, hr, -⟩ <;> simp [hr] at h
  next hout =>
    cases h
    exact ⟨rfl, w.drain_sent inner, rfl⟩

/-- Whatever the inner writer does and whenever it recovers, it has at all times a prefix of
the stream that a steady one gets for the writes that were taken, and all of it once
`finish` succeeds; a write that returns its error has taken nothing. That stream is the
encoder's over the bytes of these writes one after another, and for the xz writer the file
of them. During a call what the inner writer has only grows. -/
theorem writers_deliver :
    (∀ (P : Lzma2Parts) (enc : P.Lzma2Encoder) (dictSize : ℕ) (replies : Option (List Reply))
      (done rest : List (Request UInt8)),
      let a := lzma2Adapter P
      let w := Lzma2Writer.new enc dictSize
      let kept := taken (done ++ rest) (a.run w ⟨[], replies⟩ (done ++ rest)).2
      let stream := a.stream w kept
      ((a.run w ⟨[], replies⟩ done).1.accepted <+: stream ∧
        (a.whole w ⟨[], replies⟩ (done ++ rest)).1.accepted <+: stream ∧
        ((a.whole w ⟨[], replies⟩ (done ++ rest)).2 = .ok →
          (a.whole w ⟨[], replies⟩ (done ++ rest)).1.accepted = stream)) ∧
      ∀ encode, P.Lawful enc dictSize encode →
        stream <+: encode kept.flatten ∧
          ((a.whole w ⟨[], replies⟩ (done ++ rest)).2 = .ok → stream = encode kept.flatten)) ∧
    (∀ (P : XzParts) (enc : XzEncoder P) (replies : Option (List Reply))
      (done rest : List (Request UInt8)),
      let a := xzAdapter P
      let w : XzWriter P := ⟨enc, []⟩
      let kept := taken (done ++ rest) (a.run w ⟨[], replies⟩ (done ++ rest)).2
      let stream := a.stream w kept
      ((a.run w ⟨[], replies⟩ done).1.accepted <+: stream ∧
        (a.whole w ⟨[], replies⟩ (done ++ rest)).1.accepted <+: stream ∧
        ((a.whole w ⟨[], replies⟩ (done ++ rest)).2 = .ok →
          (a.whole w ⟨[], replies⟩ (done ++ rest)).1.accepted = stream)) ∧
      ∀ Built encode, P.Lawful Built enc.solidThreshold encode → XzEncoder.Opened Built enc →
        (∀ file, enc.file encode kept.flatten = .ok file → stream <+: file) ∧
          ((a.whole w ⟨[], replies⟩ (done ++ rest)).2 = .ok →
            enc.file encode kept.flatten = .ok stream)) ∧
    (∀ (P : Lzma2Parts) (w w' : Lzma2Writer P) (inner inner' : Outlet UInt8) (data : List UInt8),
      w.write inner data = (w', inner', .refused) →
        { w' with out := w.out } = w ∧ inner'.accepted ++ w'.out = inner.accepted ++ w.out) ∧
    (∀ (P : XzParts) (w w' : XzWriter P) (inner inner' : Outlet UInt8) (data : List UInt8),
      w.write inner data = (w', inner', .refused) →
        { w'.enc with out := w.enc.out } = w.enc ∧
          inner'.accepted ++ w'.out = inner.accepted ++ w.out ++ w.enc.out ∧
          w'.enc.out = []) := by
  refine ⟨fun P enc dictSize replies done rest => ?_, fun P enc replies done rest => ?_,
    fun P w w' inner inner' data => Lzma2Writer.write_refused,
    fun P w w' inner inner' data => XzWriter.write_refused⟩
  · have hstart : Lzma2Writer.InStep (Lzma2Writer.new enc dictSize) ⟨[], replies⟩
        (Lzma2Writer.new enc dictSize) [] := ⟨rfl, rfl, fun _ _ => rfl⟩
    obtain ⟨hdone, hall, hok⟩ :=
      (Lzma2Writer.follows P).stream (Lzma2Writer.grows P) hstart done rest
    refine ⟨⟨hdone, hall, fun h => (hok h).1⟩, fun encode hl => ?_⟩
    have hstream := (Lzma2Writer.delivers hl).whole
      (taken (done ++ rest) ((lzma2Adapter P).run (.new enc dictSize) ⟨[], replies⟩
        (done ++ rest)).2) (Lzma2Writer.held_new enc dictSize)
    exact ⟨hstream.1, fun h => hstream.2 (hok h).2⟩
  · have hstart : XzWriter.InStep (P := P) ⟨enc, []⟩ ⟨[], replies⟩ ⟨enc, []⟩ [] := ⟨rfl, rfl, rfl⟩
    obtain ⟨hdone, hall, hok⟩ := (XzWriter.follows P).stream (XzWriter.grows P) hstart done rest
    refine ⟨⟨hdone, hall, fun h => (hok h).1⟩, fun Built encode hl hopened => ?_⟩
    have hstream := (XzWriter.delivers hl hopened.fresh).whole
      (taken (done ++ rest) ((xzAdapter P).run ⟨enc, []⟩ ⟨[], replies⟩ (done ++ rest)).2)
      (XzWriter.held_fresh hopened.fresh)
    exact ⟨hstream.1, fun h => hstream.2 (hok h).2⟩

/-- A coder that passes its input through and counts it. -/
abbrev plainParts : Lzma2Parts where
  Lzma2Encoder := Unit
  Lzma2Pipe := ℕ
  encodeToVec _ data := .ok (data ++ [0])
  start _ := .ok 0
  write fed data := ⟨[data], fed + data.length, .ok ()⟩
  writeOwned fed data := ⟨[data], fed + data.length, .ok ()⟩
  finish fed := ⟨[[0]], (), .ok (fed + 1)⟩

theorem plain_fed {first fed : plainParts.Lzma2Pipe} {data out : List UInt8}
    (h : plainParts.Fed first data out fed) :
    out = data ∧ fed = ((first : ℕ) + data.length : ℕ) := by
  induction h with
  | start => exact ⟨rfl, rfl⟩
  | write more _ _ ih | writeOwned more _ _ ih =>
      obtain ⟨rfl, rfl⟩ := ih
      refine ⟨congrArg (_ ++ ·) List.flatten_singleton, ?_⟩
      rw [List.length_append, ← Nat.add_assoc]

theorem plain_lawful : plainParts.Lawful () 1 (· ++ [0]) where
  write more rest _ hfed _ := by
    obtain ⟨rfl, -⟩ := plain_fed hfed
    exact ⟨rest ++ [0], by simp⟩
  writeOwned more rest _ hfed _ := by
    obtain ⟨rfl, -⟩ := plain_fed hfed
    exact ⟨rest ++ [0], by simp⟩
  finish _ hfed _ := by
    obtain ⟨rfl, -⟩ := plain_fed hfed
    exact List.prefix_rfl
  finished hstart hfed _ hend := by
    obtain ⟨rfl, rfl⟩ := plain_fed hfed
    cases hstart
    cases hend
    refine ⟨rfl, ?_⟩
    simp
  encodeToVec h := by
    cases h
    rfl
  start h := by cases h

/-- The inner writer takes one byte and fails, fails again, is interrupted and recovers. -/
def plainInner : Outlet UInt8 :=
  ⟨[], some [.took 1, .failed, .failed, .interrupted, .took 9, .took 9, .took 9, .took 0]⟩

/-- The write that was refused is made a second time. -/
def plainCalls : List (Request UInt8) := [.write [1, 2, 3], .write [4], .write [4]]

/-- The LZMA2 stream of an input too short to be worth compressing. -/
def stored (data : List UInt8) : List UInt8 :=
  if data = [] then [0]
  else [1, UInt8.ofNat ((data.length - 1) / 256), UInt8.ofNat (data.length - 1)] ++ data ++ [0]

/-- A coder that stores its input once it has all of it, checks with the CRC-32, and no
filters. -/
abbrev storedParts : XzParts where
  Lzma2Encoder := Unit
  Lzma2Pipe := List UInt8
  encodeToVec _ data := .ok (stored data)
  start _ := .ok []
  write held data := ⟨[], held ++ data, .ok ()⟩
  writeOwned held data := ⟨[], held ++ data, .ok ()⟩
  finish held := ⟨[stored held], (), .ok (stored held).length⟩
  newEncoder := .ok ()
  encodeSolid _ data := (.ok (stored data), ())
  Converters := Unit
  validateChain _ _ := .error .param
  buildChain _ _ := .error .param
  encodePush _ data := (data, ())
  encodeFinish _ := []
  encodeInPlace _ data := data
  RunningCheck := Mt.crc32Iso.State
  checkSupported kind := kind = 1
  newCheck kind := if kind = 1 then .ok Mt.crc32Iso.new else .error .param
  updateCheck := Mt.crc32Iso.update
  finishCheck check := toLeBytes (Mt.crc32Iso.finalize check)
  computeCheck kind data :=
    if kind = 1 then .ok (toLeBytes (Mt.crc32Iso.one data)) else .error .param
  checkSize _ := 4
  crc32 := Mt.crc32Iso.one

theorem stored_fed {first held : storedParts.Lzma2Pipe} {data out : List UInt8}
    (h : storedParts.Fed first data out held) :
    out = [] ∧ held = (first ++ data : List UInt8) := by
  induction h with
  | start => exact ⟨rfl, (List.append_nil _).symm⟩
  | write more _ _ ih | writeOwned more _ _ ih =>
      obtain ⟨rfl, rfl⟩ := ih
      exact ⟨rfl, List.append_assoc _ _ _⟩

theorem stored_lawful (dictSize : ℕ) : storedParts.Lawful (fun _ => True) dictSize stored where
  pipes _ :=
    { write := fun more rest _ hfed _ => by
        obtain ⟨rfl, -⟩ := stored_fed hfed
        exact List.nil_prefix
      writeOwned := fun more rest _ hfed _ => by
        obtain ⟨rfl, -⟩ := stored_fed hfed
        exact List.nil_prefix
      finish := fun hstart hfed _ => by
        obtain ⟨rfl, rfl⟩ := stored_fed hfed
        cases hstart
        exact ⟨[], by simp⟩
      finished := fun hstart hfed _ hend => by
        obtain ⟨rfl, rfl⟩ := stored_fed hfed
        cases hstart
        cases hend
        exact ⟨by simp, rfl⟩ }
  start _ h := by cases h
  newEncoder _ := trivial
  encodeSolid _ h := by
    cases h
    rfl
  encodeSolid_built _ _ := trivial
  converters h := by cases h
  size _ h := by cases h
  check := by
    intro kind first parts h
    dsimp only at h ⊢
    split at h
    · cases h
      rw [if_pos ‹_›]
      have hsum := (Mt.register_folds 0xEDB88320#32 UInt32.toBitVec fun _ => rfl).stream parts
      exact congrArg (fun sum => Except.ok (toLeBytes sum)) hsum.symm
    · cases h

/-- Blocks of two bytes, each with its CRC-32. -/
def storedEnc : XzEncoder storedParts :=
  (((XzEncoder.new () 0 4096).setCheck 1).toOption.getD (.new () 0 4096)).setBlockSize 2

theorem storedEnc_opened : XzEncoder.Opened (fun _ => True) storedEnc :=
  .setBlockSize 2 (.setCheck 1 (.new 0 4096 trivial) rfl)

/-- The inner writer fails in the stream header and again in the first block. -/
def storedInner : Outlet UInt8 :=
  ⟨[], some ([.took 5, .failed, .interrupted, .took 9, .took 3, .failed, .failed] ++
    List.replicate 20 (.took 30))⟩

/-- The first write is refused and made again; the second is taken while output waits. -/
def storedCalls : List (Request UInt8) := [.write [97, 98, 99], .write [97, 98, 99], .flush]

/-- The file of "abc" in two blocks. -/
def storedFile : List UInt8 :=
  [0xFD, 0x37, 0x7A, 0x58, 0x5A, 0, 0, 1, 0x69, 0x22, 0xDE, 0x36,
    2, 0xC0, 6, 2, 0x21, 1, 0, 0, 142, 85, 207, 94, 1, 0, 1, 97, 98, 0, 0, 0, 109, 72, 131, 158,
    2, 0xC0, 5, 1, 0x21, 1, 0, 0, 240, 93, 251, 159, 1, 0, 0, 99, 0, 0, 0, 0, 111, 223, 185, 6,
    0, 2, 22, 2, 21, 1, 0, 0, 60, 177, 247, 59,
    62, 48, 13, 139, 2, 0, 0, 0, 0, 1, 0x59, 0x5A]

/-- Both writers behind an inner writer that fails and recovers: the stream is that of the
bytes which were taken. -/
theorem writers_deliver_plain :
    (((lzma2Adapter plainParts).run (.new () 1) plainInner plainCalls).2 = [.ok, .refused, .ok] ∧
      ((lzma2Adapter plainParts).whole (.new () 1) plainInner plainCalls).1.accepted =
        [1, 2, 3] ++ [4] ++ [0]) ∧
    (((xzAdapter storedParts).run ⟨storedEnc, []⟩ storedInner storedCalls).2 =
        [.refused, .ok, .ok] ∧
      ((xzAdapter storedParts).run ⟨storedEnc, []⟩ storedInner
        (storedCalls.take 2)).1.accepted = storedFile.take 15 ∧
      storedEnc.file stored [97, 98, 99] = .ok storedFile ∧
      ((xzAdapter storedParts).whole ⟨storedEnc, []⟩ storedInner storedCalls).1.accepted =
        storedFile) := by
  have hplain : ((lzma2Adapter plainParts).run (.new () 1) plainInner plainCalls).2 =
      [.ok, .refused, .ok] := by decide
  have hplainOk : ((lzma2Adapter plainParts).whole (.new () 1) plainInner plainCalls).2 = .ok := by
    decide
  have hstored : ((xzAdapter storedParts).run ⟨storedEnc, []⟩ storedInner storedCalls).2 =
      [.refused, .ok, .ok] := by decide +kernel
  have hstoredOk : ((xzAdapter storedParts).whole ⟨storedEnc, []⟩ storedInner storedCalls).2 =
      .ok := by decide +kernel
  have hfile : (storedEnc.file stored [97, 98, 99]).toOption = some storedFile := by
    decide +kernel
  have hfile' : storedEnc.file stored [97, 98, 99] = .ok storedFile := by
    cases hf : storedEnc.file stored [97, 98, 99] with
    | error e =>
        rw [hf] at hfile
        cases hfile
    | ok all =>
        rw [hf] at hfile
        exact congrArg Except.ok (Option.some.inj hfile)
  refine ⟨⟨hplain, ?_⟩, hstored, by decide +kernel, hfile', ?_⟩
  · obtain ⟨hsent, hlaw⟩ := writers_deliver.1 plainParts () 1 plainInner.replies [] plainCalls
    have hkept := (hlaw _ plain_lawful).2 hplainOk
    have hbytes : (taken plainCalls ((lzma2Adapter plainParts).run (.new () 1)
        plainInner plainCalls).2).flatten = [1, 2, 3] ++ [4] := by
      rw [hplain]
      rfl
    exact (hsent.2.2 hplainOk).trans (hkept.trans (congrArg (· ++ [0]) hbytes))
  · obtain ⟨hsent, hlaw⟩ :=
      writers_deliver.2.1 storedParts storedEnc storedInner.replies [] storedCalls
    have hkept := (hlaw _ _ (stored_lawful _) storedEnc_opened).2 hstoredOk
    have hbytes : (taken storedCalls ((xzAdapter storedParts).run ⟨storedEnc, []⟩
        storedInner storedCalls).2).flatten = [97, 98, 99] := by
      rw [hstored]
      rfl
    have hstream := Except.ok.inj
      (hkept.symm.trans ((congrArg (storedEnc.file stored) hbytes).trans hfile'))
    exact (hsent.2.2 hstoredOk).trans hstream

end LzmaTurbo.Enc
