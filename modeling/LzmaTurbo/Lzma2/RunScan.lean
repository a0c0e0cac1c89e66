import LzmaTurbo.Lzma2.Runs

/-!
# The scanner's runs are the decoder's

However a stream is divided between what is fed and what is skipped, the runs
reported cut the stream and its output into pieces that fresh decoders decode.
-/
namespace LzmaTurbo.Lzma2
open Machine Lzma StreamMachine

/-- The last call found the end mark. -/
def Trace2.finished (t : Trace2) : Prop :=
  ∃ call pr, t.last = some (call, .ok pr) ∧ pr.status = .finishedWithMark

/-- A run that fresh decoders decode, given its bytes and an end mark. -/
structure RunAlone (dictProp : ℕ) (r : Lzma2Run) (packed out : List UInt8) : Prop where
  reset : r.hasDictReset = true
  starts : ∃ b ∈ packed.head?, Resets b
  chunks : Chunks packed r.chunks
  packed_total : r.chunks.packed = r.packedLen
  unpacked_total : r.chunks.unpacked = r.unpackedLen
  sessions : ∀ calls, ∃ d t, Lzma2Decoder.new dictProp = .ok d ∧
    (Trace2.start d (packed ++ [0])).session calls = .ok t ∧ t.out <+: out ∧
    (t.finished → t.out = out)
  whole : ∃ d t, Lzma2Decoder.new dictProp = .ok d ∧ (Trace2.start d (packed ++ [0])).session
    [⟨(packed ++ [0]).length, out.length, .endMark⟩] = .ok t ∧ t.finished ∧ t.out = out

section
variable {dictProp : ℕ} {prop : LzmaProps} {xs ys done rest out : List UInt8}
  {s : Lzma2RunScanner} {runs : List Lzma2Run}

/-- One call with room for all of an accepted stream's output finds the end mark. -/
theorem single_call_finishes {d : Lzma2Decoder} (hat : d.At2 (Pos.start prop) [] [])
    (hsize : d.decoder.prop.dictSize ≤ d.decoder.dicBufSize)
    (h : format2 prop xs = ⟨out, rest, .mark⟩) : ∃ t,
      (Trace2.start d xs).session [⟨xs.length, out.length, .endMark⟩] = .ok t ∧ t.finished := by
  obtain ⟨t, r, ht, hlast, hend⟩ := single_call hat hsize xs out.length .endMark
  have hv : (format2 prop xs).verdict = .mark := by rw [h]
  refine ⟨t, ht, ?_⟩
  cases hend with
  | more new pos' held ho hres hm hat hx hout hs hlen =>
      rw [Moves2.more hm hs] at hv
      cases hv
  | full n new pos' held ho hn hres hmode => cases hmode
  | finished n new r' ho hn hres hm hat hout hlen => exact ⟨_, _, hlast.trans (by rw [hres]), rfl⟩
  | corrupt new pos' ys ho hres hm hdoom =>
      have hnever := hdoom.never hm []
      rw [List.append_nil] at hnever
      exact absurd hv hnever
  | past new pos' ys ho hres hmode hm hsuf hdue =>
      have hle := hm.dueWith_le hv
      rw [h] at hle
      exact absurd (hdue.trans_le hle) (by simp)

/-- What the grammar accepts alone, fresh decoders decode alone. -/
theorem RunRead.decodes (hd : dictProp ≤ 40)
    (hprop : prop = allocProps (dicSizeFromPropFull dictProp) (dicSizeFromPropFull_lt _))
    {r : Lzma2Run} {packed : List UInt8} (h : RunRead prop r packed out)
    (hpacked : r.packedLen = packed.length) (hunpacked : r.unpackedLen = out.length) :
    RunAlone dictProp r packed out := by
  obtain ⟨d, hnew, hp, hat, hsize⟩ := Lzma2Decoder.new_at hd
  rw [hp, ← hprop] at hat
  have hagrees := hat.session hsize (packed ++ [0])
  refine ⟨h.reset, h.starts, h.chunks, h.chunks.packed.trans hpacked.symm,
    h.unpacked.trans hunpacked.symm, fun calls => ?_, ?_⟩
  · obtain ⟨t, ht, hag⟩ := hagrees calls
    have hpre := hag.isPrefix
    rw [h.alone] at hpre
    refine ⟨d, t, hnew, ht, hpre, fun ⟨call, pr, hl, hst⟩ => ?_⟩
    obtain ⟨-, hout, -⟩ := hag.finished call pr hl hst
    rw [hout, h.alone]
  · obtain ⟨t, ht, hfin⟩ := single_call_finishes hat hsize h.alone
    obtain ⟨t', ht', hag⟩ := hagrees [⟨(packed ++ [0]).length, out.length, .endMark⟩]
    obtain rfl : t = t' := by
      rw [ht] at ht'
      exact Except.ok.inj ht'
    refine ⟨d, t, hnew, ht, hfin, ?_⟩
    obtain ⟨call, pr, hl, hst⟩ := hfin
    obtain ⟨-, hout, -⟩ := hag.finished call pr hl hst
    rw [hout, h.alone]

theorem Tiled.decodes (hd : dictProp ≤ 40)
    (hprop : prop = allocProps (dicSizeFromPropFull dictProp) (dicSizeFromPropFull_lt _))
    (h : Tiled (RunRead prop) runs xs out) : Tiled (RunAlone dictProp) runs xs out := by
  induction h with
  | nil => exact .nil
  | snoc _ h1 h2 h3 h4 hP ih => exact .snoc ih h1 h2 h3 h4 (hP.decodes hd hprop h2 h4)

/-- A stream with its end mark, all of it scanned. -/
theorem scan_accepted (h : (format2 prop xs).verdict = .mark) :
    ∃ body, xs = body ++ 0 :: (format2 prop xs).rest ∧
      Tiled (RunRead prop) (Lzma2RunScanner.new.scan (body ++ [0])).ready body
        (format2 prop xs).out ∧
      (Lzma2RunScanner.new.scan (body ++ [0])).finished = true ∧
      (Lzma2RunScanner.new.scan (body ++ [0])).failed = false ∧
      (Lzma2RunScanner.new.scan (body ++ [0])).dataRemaining = 0 := by
  obtain ⟨ys, hm, hlast⟩ := Pos.lawful.run_moves (Pos.start_ok prop) xs
  have hformat : format2 prop xs = .of (run Pos.step Pos.measure (Pos.start prop) xs) := rfl
  generalize run Pos.step Pos.measure (Pos.start prop) xs = res at hm hlast hformat
  obtain ⟨last, left, verdict⟩ := res
  rw [hformat] at h ⊢
  cases verdict with
  | more => cases h
  | reject => cases h
  | mark u =>
      obtain ⟨r, hr, hys⟩ := Pos.step_mark hlast
      have hlast' : last = .chunk r := hr
      subst hlast'
      obtain ⟨body, hbody, hsc⟩ := (scanned_new prop).moves hm (Pos.start_ok prop) rfl
      rw [List.nil_append] at hsc
      obtain ⟨hready, hfin, hfail, hrem⟩ := hsc.finish
      have hscan : Lzma2RunScanner.new.scan (body ++ [0]) =
          (Lzma2RunScanner.new.scan body).next 0 := Lzma2RunScanner.scan_append _ _ _
      refine ⟨body, by rw [hbody, hys]; rfl, ?_⟩
      rw [hscan, hready]
      exact ⟨hsc.closeRun, hfin, hfail, hrem⟩

/-- Runs once reported stay reported. -/
theorem Lzma2RunScanner.ready_scan (s : Lzma2RunScanner) (xs : List UInt8) :
    s.ready <+: (s.scan xs).ready := by
  have hclose : ∀ s : Lzma2RunScanner, s.ready <+: s.closeRun.ready := by
    intro s
    unfold Lzma2RunScanner.closeRun
    cases s.current with
    | none => exact List.prefix_rfl
    | some o => exact List.prefix_append _ _
  have hupdate : ∀ (s : Lzma2RunScanner) b, (s.update b).scanner.ready = s.ready := by
    intro s b
    simp only [Lzma2RunScanner.update]
    cases (s.frame.updateState b s.prop).1.state <;> rfl
  have hcontrol : ∀ (s : Lzma2RunScanner) b, s.ready <+: (s.onControl b).2.ready := by
    intro s b
    simp only [Lzma2RunScanner.onControl]
    generalize hs : (if decide (b = 0 ∨ 0xE0 ≤ b ∨ b = lzma2ControlCopyResetDic) = true then
      s.closeRun else s) = s'
    have hs' : s.ready <+: s'.ready := by
      rw [← hs]
      split
      · exact hclose s
      · exact List.prefix_rfl
    split
    · exact hs'
    · cases hc : s'.current <;> exact hs'
  induction xs generalizing s with
  | nil => exact List.prefix_rfl
  | cons b xs ih =>
      refine List.IsPrefix.trans ?_ (ih (s.next b))
      unfold Lzma2RunScanner.next
      split
      · exact List.prefix_rfl
      split
      · exact List.prefix_rfl
      simp only [Lzma2RunScanner.header]
      by_cases hc : s.frame.state = .control
      · rw [if_pos hc]
        by_cases hg : (s.onControl b.toNat).1 = true
        · rw [if_pos hg, hupdate]
          exact hcontrol s _
        · rw [if_neg hg]
          exact hcontrol s _
      · rw [if_neg hc]
        simp only [if_true, hupdate]
        exact List.prefix_rfl

/-- No prefix of an accepted stream stops the scanner but the one with the end mark. -/
theorem scannable_accepted {body : List UInt8}
    (hfin : (Lzma2RunScanner.new.scan (body ++ [0])).finished = true)
    (hfail : (Lzma2RunScanner.new.scan (body ++ [0])).failed = false)
    (hrem : (Lzma2RunScanner.new.scan (body ++ [0])).dataRemaining = 0) :
    Scannable (body ++ 0 :: rest) := by
  intro done left hdone
  have hsplit : body ++ 0 :: rest = (body ++ [0]) ++ rest := by
    rw [List.append_assoc, List.singleton_append]
  rw [hsplit] at hdone
  obtain ⟨more, hbody, hleft⟩ | ⟨more, hmore, hrest⟩ := List.append_eq_append_iff.mp hdone
  · have hscan : Lzma2RunScanner.new.scan done = Lzma2RunScanner.new.scan (body ++ [0]) := by
      rw [hbody, Lzma2RunScanner.scan_append, Lzma2RunScanner.scan_stopped (.inl hfin)]
    rw [hscan, hrem]
    exact ⟨hfail, fun _ => rfl, Nat.zero_le _⟩
  · rw [hmore, Lzma2RunScanner.scan_append] at hfin hfail hrem
    generalize Lzma2RunScanner.new.scan done = s at hfin hfail hrem ⊢
    by_cases he : s.failed = true
    · rw [Lzma2RunScanner.scan_stopped (.inr he), he] at hfail
      cases hfail
    · by_cases hf : s.finished = true
      · rw [Lzma2RunScanner.scan_stopped (.inl hf)] at hrem
        exact ⟨by simpa using he, fun _ => hrem, hrem ▸ Nat.zero_le _⟩
      · refine ⟨by simpa using he, fun h => absurd h hf, ?_⟩
        by_contra hlong
        have hlen := congrArg List.length hrest
        rw [List.length_append] at hlen
        rw [Lzma2RunScanner.scan_payload (by simpa using hf) (by simpa using he) (by omega)] at hfin
        exact hf hfin

/-- However the stream is handed over, what is reported is a prefix of the same runs, all of
them once the end is seen, and the end is seen once all is fed. -/
theorem ScanTrace.runs_eq {body : List UInt8} (hxs : xs = body ++ 0 :: rest)
    (hruns : (Lzma2RunScanner.new.scan (body ++ [0])).ready = runs)
    (hfin : (Lzma2RunScanner.new.scan (body ++ [0])).finished = true) {t : ScanTrace}
    (h : t.At xs) : t.runs <+: runs ∧ (t.s.finished = true ∨ t.rest = [] → t.runs = runs) := by
  obtain ⟨⟨done, hdone, hs⟩, -⟩ := h
  have hsplit : xs = (body ++ [0]) ++ rest := by
    rw [hxs, List.append_assoc, List.singleton_append]
  rw [hsplit] at hdone
  have hready : t.runs = (Lzma2RunScanner.new.scan done).ready := by
    rw [← hs]
    rfl
  have hflag : t.s.finished = (Lzma2RunScanner.new.scan done).finished := by
    rw [← hs]
    rfl
  rw [hready, hflag]
  obtain ⟨more, hbody, hleft⟩ | ⟨more, hmore, hrest⟩ := List.append_eq_append_iff.mp hdone
  · have hscan : Lzma2RunScanner.new.scan done = Lzma2RunScanner.new.scan (body ++ [0]) := by
      rw [hbody, Lzma2RunScanner.scan_append, Lzma2RunScanner.scan_stopped (.inl hfin)]
    rw [hscan, hruns]
    exact ⟨List.prefix_rfl, fun _ => rfl⟩
  · rw [← hruns, hmore, Lzma2RunScanner.scan_append]
    refine ⟨Lzma2RunScanner.ready_scan _ _, fun hend => ?_⟩
    rcases hend with hf | hr
    · rw [Lzma2RunScanner.scan_stopped (.inl hf)]
    · rw [hr] at hrest
      obtain ⟨rfl, -⟩ := List.append_eq_nil_iff.mp hrest.symm
      rfl

/-- Once all that is left is fed, the end is seen or nothing is left. -/
theorem ScanTrace.At.feed_all {t : ScanTrace} (h : t.At xs) (hxs : Scannable xs) :
    (t.step (.feed t.rest.length)).s.finished = true ∨
      (t.step (.feed t.rest.length)).rest = [] := by
  obtain ⟨⟨done, hdone, hs⟩, -⟩ := h
  have he : t.s.failed = false := by
    have := (hxs done t.rest hdone).1
    rwa [← hs] at this
  have hall : (t.s.scan t.rest).failed = false := by
    have := (hxs (done ++ t.rest) [] (by rw [List.append_nil, hdone])).1
    rw [Lzma2RunScanner.scan_append, ← hs, Lzma2RunScanner.scan_after] at this
    exact this
  have hfeed : t.s.feed t.rest = feedLoop t.rest.length t.s t.rest 0 := by
    unfold Lzma2RunScanner.feed
    rw [if_neg (by simp [he])]
  have hloop : FeedEnd t.s t.rest 0 _ := feedLoop_end le_rfl he
  obtain ⟨hscan, hend⟩ := hloop
  rw [← hfeed] at hscan hend
  simp only [ScanTrace.step, List.take_length]
  obtain ⟨hbad, -⟩ | ⟨-, k, hk, hres, -, hfin⟩ := hend
  · rw [hscan, hall] at hbad
    cases hbad
  · generalize t.s.feed t.rest = r at *
    obtain ⟨s', res⟩ := r
    obtain rfl : res = .ok (0 + k) := hres
    rcases Nat.lt_or_ge k t.rest.length with hlt | hge
    · exact .inl (hfin hlt)
    · refine .inr (List.drop_eq_nil_of_le ?_)
      omega

/-- For a stream a decoder accepts, the runs reported are the same however it is divided
between `feed` and `skip_payload`; they cut the stream before its end mark and its output
into pieces, and each piece decodes alone. -/
theorem runs_decode_alone {d : Lzma2Decoder} {t : Trace2} {calls : List Call}
    (hd : Lzma2Decoder.new dictProp = .ok d) (hs : (Trace2.start d xs).session calls = .ok t)
    (hfin : t.finished) : ∃ body runs, xs = body ++ 0 :: t.rest ∧
      Tiled (RunAlone dictProp) runs body t.out ∧
      ∀ ops : List ScanOp, ∀ e, e = ops.foldl ScanTrace.step (.start xs) →
        e.failed = false ∧ e.runs <+: runs ∧ (e.s.finished = true → e.runs = runs) ∧
        (e.step (.feed e.rest.length)).runs = runs := by
  have hle : dictProp ≤ 40 := by
    by_contra hgt
    rw [Lzma2Decoder.new, if_pos (by omega)] at hd
    cases hd
  obtain ⟨d', hd', hprop, -⟩ := Lzma2Decoder.new_at hle
  obtain rfl : d = d' := by
    rw [hd] at hd'
    exact Except.ok.inj hd'
  obtain ⟨d', t', hd', ht', hag⟩ := session2_agrees dictProp hle xs calls
  obtain rfl : d = d' := by
    rw [hd] at hd'
    exact Except.ok.inj hd'
  obtain rfl : t = t' := by
    rw [hs] at ht'
    exact Except.ok.inj ht'
  obtain ⟨call, pr, hlast, hst⟩ := hfin
  obtain ⟨hv, hout, hrest⟩ := hag.finished call pr hlast hst
  obtain ⟨body, hxs, htiled, hf, he, hrem⟩ := scan_accepted hv
  rw [← hout] at htiled
  rw [← hrest] at hxs
  refine ⟨body, _, hxs, htiled.decodes hle hprop, fun ops e he' => ?_⟩
  have hscannable : Scannable xs := hxs ▸ scannable_accepted hf he hrem
  have hat := (ScanTrace.start_at xs).run hscannable ops
  rw [← he'] at hat
  obtain ⟨hpre, hall⟩ := ScanTrace.runs_eq hxs rfl hf hat
  exact ⟨hat.failed, hpre, fun h => hall (.inl h),
    (ScanTrace.runs_eq hxs rfl hf (hat.step hscannable _)).2 (hat.feed_all hscannable)⟩

/-- The run of a stream of one stored byte. -/
theorem runs_decode_alone_stored : ∃ t : Trace2, ∃ body runs, storedStream = body ++ 0 :: t.rest ∧
    Tiled (RunAlone 0) runs body t.out ∧
    ∀ ops : List ScanOp, ∀ e, e = ops.foldl ScanTrace.step (.start storedStream) →
      e.failed = false ∧ e.runs <+: runs ∧ (e.s.finished = true → e.runs = runs) ∧
      (e.step (.feed e.rest.length)).runs = runs := by
  obtain ⟨d, hd, hprop, hat, hsize⟩ := new_small
  obtain ⟨t, ht, hfin⟩ := single_call_finishes hat hsize storedStream_format
  exact ⟨t, runs_decode_alone hd ht hfin⟩

end

end LzmaTurbo.Lzma2
