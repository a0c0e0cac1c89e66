import LzmaTurbo.Enc.PipeSleep

/-!
# The way to the encoder

What the encoder has been given, what is on its way and what the caller still holds are
in this order the bytes of the writes. A side that only looks leaves the line alone; the
caller's send and the encoder's reads move what stands at a cut.
-/
namespace LzmaTurbo.Enc
namespace Pipe
variable {s s' : Pipe}

/-- The encoder has seen the end of the input, or will. -/
def endOnWay (s : Pipe) : Prop :=
  s.ended = true ∨ s.source.held = some [] ∨ [] ∈ s.input

/-- Where the caller's bytes are. An empty chunk is the end, and nothing follows it. -/
structure Flow (s : Pipe) : Prop where
  read : s.thread.sinkOpen = false → s.read <+: s.accepted
  fed : s.thread.sinkOpen = true → s.fed <+: s.accepted
  kept : s.failed = false → s.writer.view.closed = false → s.thread.sinkOpen = true →
    s.fed ++ s.toSend = s.accepted
  sent : s.failed = false → s.writer.view.closed = false → s.thread.sinkOpen = true →
    s.writer.view.ending = true → s.endOnWay
  cur : s.source.isIdle = false → s.cur = []
  ended : s.ended = true →
    s.read = s.accepted ∧ s.writer.view.ending = true ∧ s.source.isIdle = true
  endHeld : s.source.held = some [] →
    s.input = [] ∧ s.fed = s.accepted ∧ s.writer.view.ending = true
  endIn : s.thread.sinkOpen = true → [] ∈ s.input →
    (∃ pre, s.input = pre ++ [[]] ∧ [] ∉ pre) ∧ s.fed = s.accepted ∧ s.writer.view.ending = true

/-- What the caller still holds has not been read. -/
def Apart (s : Pipe) : Prop :=
  s.failed = false → s.writer.view.closed = false →
    s.read.length + s.toSend.length ≤ s.accepted.length

theorem start_flow : Flow start := by
  constructor <;> simp [start, Pipe.fed, toSend, Writer.view, View.ending, Source.isIdle,
    Source.held]

theorem start_apart : Apart start := fun _ _ => Nat.le_refl _

/-- What stands between the caller and the encoder, and the encoder's share of it. -/
def passage (s : Pipe) : List (List UInt8) × Source × List UInt8 × ℕ × Bool × List UInt8 :=
  (s.input, s.source, s.cur, s.pos, s.ended, s.read)

theorem fed_of_passage (h : s'.passage = s.passage) : s'.fed = s.fed := by
  simp only [passage, Prod.mk.injEq] at h
  obtain ⟨hinput, hsource, hcur, hpos, -, hread⟩ := h
  simp only [fed, hinput, hsource, hcur, hpos, hread]

theorem read_isPrefix (s : Pipe) : s.read <+: s.fed := by
  simp only [fed, List.append_assoc]
  exact List.prefix_append _ _

theorem Flow.read_accepted (h : Flow s) : s.read <+: s.accepted := by
  cases hopen : s.thread.sinkOpen with
  | true => exact s.read_isPrefix.trans (h.fed hopen)
  | false => exact h.read hopen

/-- A step that leaves the passage alone. -/
theorem Flow.frame (h : Flow s) (hpassage : s'.passage = s.passage)
    (haccepted : s'.accepted = s.accepted)
    (hopen : s'.thread.sinkOpen = true → s.thread.sinkOpen = true)
    (hending : s.writer.view.ending = true → s'.writer.view.ending = true)
    (hsend : s'.failed = false → s'.writer.view.closed = false → s'.thread.sinkOpen = true →
      s.failed = false ∧ s.writer.view.closed = false ∧ s'.toSend = s.toSend ∧
        (s'.writer.view.ending = true → s.writer.view.ending = true)) : Flow s' := by
  have hfed := fed_of_passage hpassage
  have hstart := h.read_accepted
  obtain ⟨-, h2, h3, hsent, h4, h5, h6, h7⟩ := h
  simp only [passage, Prod.mk.injEq] at hpassage
  obtain ⟨hinput, hsource, hcur, hpos, hended, hread⟩ := hpassage
  constructor
  · intro _
    rw [hread, haccepted]
    exact hstart
  · intro ho
    rw [hfed, haccepted]
    exact h2 (hopen ho)
  · intro hf hc ho
    obtain ⟨hf', hc', ht, -⟩ := hsend hf hc ho
    rw [hfed, ht, haccepted]
    exact h3 hf' hc' (hopen ho)
  · intro hf hc ho he
    obtain ⟨hf', hc', -, hback⟩ := hsend hf hc ho
    rw [endOnWay, hended, hsource, hinput]
    exact hsent hf' hc' (hopen ho) (hback he)
  · rw [hsource, hcur]
    exact h4
  · rw [hended, hread, haccepted, hsource]
    intro he
    obtain ⟨ha, hw, hi⟩ := h5 he
    exact ⟨ha, hending hw, hi⟩
  · rw [hsource, hinput, hfed, haccepted]
    intro he
    obtain ⟨ha, hw, hi⟩ := h6 he
    exact ⟨ha, hw, hending hi⟩
  · rw [hinput, hfed, haccepted]
    intro ho he
    obtain ⟨ha, hw, hi⟩ := h7 (hopen ho) he
    exact ⟨ha, hw, hending hi⟩

theorem fed_push (s : Pipe) (chunk : List UInt8) (w : Writer) :
    fed { s with input := s.input ++ [chunk], writer := w } = s.fed ++ chunk := by
  simp [fed]

theorem After.rest_of_isLast {after : After} (h : after.isLast = true) : after.rest = [] := by
  cases after <;> simp_all [After.isLast, After.rest]

/-- The caller's chunk joins the line. -/
theorem Flow.push (hs : Shape s) (h : Flow s) {chunk : List UInt8} {after : After}
    (hw : s.writer = .trySend chunk after) :
    Flow { s with input := s.input ++ [chunk], writer := .drain after } := by
  have hending : ¬ s.writer.view.ending = true := by rw [hw]; exact Bool.false_ne_true
  have hclosed : s.writer.view.closed = false := by rw [hw]; rfl
  have hfailed : s.failed = false := by
    by_contra hf
    have := hs.failed (by simpa using hf)
    simp [hw, Writer.view] at this
  have hlast : chunk = [] ↔ after.isLast = true := by
    simpa [hw, Writer.view] using hs.last
  have hfill : s.fill = [] := hs.sends (by rw [hw]; rfl)
  have hkept (ho : s.thread.sinkOpen = true) : s.fed ++ chunk ++ after.rest = s.accepted := by
    simpa [toSend, hw, Writer.view, hfill] using h.kept hfailed hclosed ho
  constructor
  case read => exact h.read
  case fed =>
    intro ho
    rw [fed_push]
    exact ⟨_, hkept ho⟩
  case kept =>
    intro _ _ ho
    rw [fed_push, toSend]
    simpa [Writer.view, hfill] using hkept ho
  case sent =>
    intro _ _ _ he
    have hempty : chunk = [] := hlast.mpr (by simpa [View.ending, Writer.view] using he)
    exact .inr (.inr (by simp [hempty]))
  case cur => exact h.cur
  case ended => exact fun he => absurd (h.ended he).2.1 hending
  case endHeld => exact fun he => absurd (h.endHeld he).2.2 hending
  case endIn =>
    intro ho hmem
    have hnot : [] ∉ s.input := fun hm => hending (h.endIn ho hm).2.2
    have hempty : chunk = [] := by simpa [hnot, eq_comm] using hmem
    have hafter := hlast.mp hempty
    refine ⟨⟨s.input, by rw [hempty], hnot⟩, ?_, ?_⟩
    · rw [fed_push, ← hkept ho, After.rest_of_isLast hafter, List.append_nil]
    · simp [View.ending, Writer.view, hafter]

theorem Flow.resume (hs : Shape s) (h : Flow s) {after : After}
    (hw : s.writer = .drain after) : Flow (s.resume after) := by
  have hfill : after ≠ .done → s.fill = [] := by
    simpa [hw, Writer.view] using hs.drains
  cases after with
  | loop rest =>
      exact h.frame rfl rfl id (by grind -ring -linarith -order)
        (by grind -ring -linarith -order [toSend, Pipe.resume])
  | owned data =>
      unfold Pipe.resume
      dsimp only
      split
      · exact h.frame rfl rfl id (by grind -ring -linarith -order)
          (by grind -ring -linarith -order [toSend])
      · exact h.frame rfl rfl id (by grind -ring -linarith -order)
          (by grind -ring -linarith -order [toSend])
  | endInput =>
      exact h.frame rfl rfl id (by grind -ring -linarith -order)
        (by grind -ring -linarith -order [toSend, Pipe.resume])
  | lastOutput =>
      exact h.frame rfl rfl id (by grind -ring -linarith -order [Pipe.resume])
        (by grind -ring -linarith -order [toSend, Pipe.resume])
  | done =>
      exact h.frame rfl rfl id (by grind -ring -linarith -order)
        (by grind -ring -linarith -order [toSend, Pipe.resume])

/-- A call brings its bytes. -/
theorem Flow.accept (h : Flow s) {data : List UInt8} (hidle : s.writer.view.idle = true)
    (hpassage : s'.passage = s.passage) (haccepted : s'.accepted = s.accepted ++ data)
    (hthread : s'.thread = s.thread) (hfailed : s'.failed = s.failed)
    (hsend : s'.toSend = s.fill ++ data) (hnot : s'.writer.view.ending = false) : Flow s' := by
  have honly := s.writer.idle_only hidle
  have hending : ¬ s.writer.view.ending = true := by
    simp [View.ending, honly]
  have hfed := fed_of_passage hpassage
  have hstart := h.read_accepted
  have htoSend : s.toSend = s.fill := by
    cases hw : s.writer with
    | append got back => cases back <;> simp [hw, Writer.view, Back.view] at hidle
    | idle result => simp [toSend, hw, Writer.view]
    | _ => simp [hw, Writer.view] at hidle
  simp only [passage, Prod.mk.injEq] at hpassage
  obtain ⟨hinput, hsource, hcur, hpos, hended, hread⟩ := hpassage
  constructor
  case read =>
    intro _
    rw [hread, haccepted]
    exact hstart.trans (List.prefix_append _ _)
  case fed =>
    intro ho
    rw [hfed, haccepted]
    exact (h.fed (hthread ▸ ho)).trans (List.prefix_append _ _)
  case kept =>
    intro hf _ ho
    have := h.kept (hfailed ▸ hf) honly.2.2.2 (hthread ▸ ho)
    rw [hfed, hsend, haccepted, ← this, htoSend, List.append_assoc]
  case sent =>
    intro _ _ _ he
    simp [hnot] at he
  case cur => rw [hsource, hcur]; exact h.cur
  case ended => rw [hended]; exact fun he => absurd (h.ended he).2.1 hending
  case endHeld => rw [hsource]; exact fun he => absurd (h.endHeld he).2.2 hending
  case endIn =>
    rw [hthread, hinput]
    exact fun ho hm => absurd (h.endIn ho hm).2.2 hending

theorem call_flow (h : Flow s) {c : Call} (hgo : s.call c = some s') : Flow s' := by
  unfold call at hgo
  split at hgo
  case h_2 => cases hgo
  case h_1 _ _ hw =>
    have hidle : s.writer.view.idle = true := by rw [hw]; rfl
    cases c with
    | write data =>
        cases hgo
        exact h.accept hidle rfl rfl rfl rfl (by simp [toSend, Writer.view]) rfl
    | writeOwned data =>
        simp only [sendFill, Pipe.resume] at hgo
        split at hgo
        · split at hgo <;> cases hgo
          · exact h.accept hidle rfl rfl rfl rfl (by simp_all [toSend, Writer.view]) rfl
          · exact h.accept hidle rfl rfl rfl rfl (by simp_all [toSend, Writer.view, After.rest]) rfl
        · cases hgo
          exact h.accept hidle rfl rfl rfl rfl (by simp_all [toSend, Writer.view, After.rest]) rfl
    | finish =>
        have hnil : s.accepted = s.accepted ++ [] := (List.append_nil _).symm
        simp only [sendFill, Pipe.resume] at hgo
        split at hgo <;> cases hgo
        · exact h.accept hidle rfl hnil rfl rfl (by simp_all [toSend, Writer.view, After.rest]) rfl
        · exact h.accept hidle rfl hnil rfl rfl (by simp_all [toSend, Writer.view, After.rest]) rfl

/-- What a write has not taken is the end of the line, and comes off it. -/
theorem Flow.withdraw (hs : Shape s) (h : Flow s) (ha : Apart s) {rest : List UInt8}
    (hw : s.writer = .loop rest) (hfill : s.fill = []) {e : PipeError} :
    Flow { s with
      accepted := s.accepted.take (s.accepted.length - rest.length)
      writer := .idle (.error e) } := by
  have hidle : s.writer.view.idle = false := by rw [hw]; rfl
  have hclosed : s.writer.view.closed = false := by rw [hw]; rfl
  have hending : ¬ s.writer.view.ending = true := by rw [hw]; exact Bool.false_ne_true
  have hfailed := hs.notFailed hidle hclosed
  have htoSend : s.toSend = rest := by simp [toSend, hw, hfill, Writer.view]
  have hroom := ha hfailed hclosed
  rw [htoSend] at hroom
  have hkept (ho : s.thread.sinkOpen = true) :
      s.fed = s.accepted.take (s.accepted.length - rest.length) := by
    have hall := h.kept hfailed hclosed ho
    rw [htoSend] at hall
    rw [← hall, List.length_append, Nat.add_sub_cancel, List.take_left]
  constructor
  case read =>
    intro _
    exact List.prefix_take_iff.2 ⟨h.read_accepted, Nat.le_sub_of_add_le hroom⟩
  case fed => exact fun ho => (hkept ho) ▸ List.prefix_rfl
  case kept =>
    intro _ _ ho
    rw [← hkept ho]
    change s.fed ++ ([] ++ s.fill ++ []) = s.fed
    rw [hfill, List.append_nil, List.append_nil, List.append_nil]
  case sent => exact fun _ _ _ he => by cases he
  case cur => exact h.cur
  case ended => exact fun he => absurd (h.ended he).2.1 hending
  case endHeld => exact fun he => absurd (h.endHeld he).2.2 hending
  case endIn => exact fun ho hm => absurd (h.endIn ho hm).2.2 hending

theorem refuse_flow (hs : Shape s) (h : Flow s) (ha : Apart s) (hgo : s.refuse = some s') :
    Flow s' := by
  obtain ⟨rest, hw, hfill, rfl⟩ | ⟨e, hclosed, ⟨hending, rfl⟩ | rfl⟩ := refuse_cases hgo
  · exact h.withdraw hs ha hw hfill
  · exact h.frame rfl rfl id (by grind -ring -linarith -order) (by grind -ring -linarith -order)
  · exact h.frame rfl rfl id (by grind -ring -linarith -order [close])
      (by grind -ring -linarith -order [close])

theorem go_flow (hs : Shape s) (h : Flow s) (hgo : s.go = some s') : Flow s' := by
  have hthread := s.thread.sinkOpen_of_sourceOpen
  have hstops := hs.stops
  have hjoins := hs.joins
  have hclosed := hs.inputClosed
  unfold go at hgo
  cases hw : s.writer with
  | idle result => simp [hw] at hgo
  | closed result => simp [hw] at hgo
  | loop rest =>
      simp only [hw] at hgo
      split at hgo
      · cases hgo
        exact h.frame rfl rfl id (by grind -ring -linarith -order)
          (by grind -ring -linarith -order [toSend])
      · split at hgo <;> cases hgo
        · refine h.frame rfl rfl id
            (by grind -ring -linarith -order) fun hf _ _ => ⟨hf, by rw [hw]; rfl, ?_, ?_⟩
          · simp [toSend, hw, Writer.view, After.rest]
          · simp [View.ending, Writer.view]
        · refine h.frame rfl rfl id
            (by grind -ring -linarith -order) fun hf _ _ => ⟨hf, by rw [hw]; rfl, ?_, ?_⟩
          · simp [toSend, hw, Writer.view]
          · simp [View.ending, Writer.view]
  | lock chunk after =>
      simp only [hw, Option.some.injEq] at hgo
      subst hgo
      exact h.frame rfl rfl id (by grind -ring -linarith -order)
        (by grind -ring -linarith -order [toSend])
  | trySend chunk after =>
      simp only [hw] at hgo
      split at hgo
      · cases hgo
        exact h.frame rfl rfl id (by grind -ring -linarith -order)
          (by grind -ring -linarith -order [toSend, stop])
      split at hgo
      · cases hgo
        exact h.frame rfl rfl id (by grind -ring -linarith -order)
          (by grind -ring -linarith -order [toSend, stop])
      split at hgo <;> cases hgo
      · exact h.push hs hw
      · exact h.frame rfl rfl id (by grind -ring -linarith -order)
          (by grind -ring -linarith -order [toSend])
  | tryRecv chunk after =>
      simp only [hw] at hgo
      split at hgo
      · cases hgo
        exact h.frame rfl rfl id (by grind -ring -linarith -order)
          (by grind -ring -linarith -order [toSend])
      · split at hgo <;> cases hgo
        · exact h.frame rfl rfl id (by grind -ring -linarith -order)
            (by grind -ring -linarith -order [toSend])
        · exact h.frame rfl rfl id (by grind -ring -linarith -order)
            (by grind -ring -linarith -order [toSend, stop])
  | asleep chunk after => simp [hw] at hgo
  | woken chunk after =>
      simp only [hw, Option.some.injEq] at hgo
      subst hgo
      exact h.frame rfl rfl id (by grind -ring -linarith -order)
        (by grind -ring -linarith -order [toSend])
  | append got back =>
      simp only [hw] at hgo
      cases back <;> cases hgo <;>
        exact h.frame rfl rfl id (by grind -ring -linarith -order)
          (by grind -ring -linarith -order [toSend])
  | drain after =>
      simp only [hw] at hgo
      split at hgo <;> cases hgo
      · exact h.frame rfl rfl id (by grind -ring -linarith -order)
          (by grind -ring -linarith -order [toSend])
      · exact h.resume hs hw
  | last =>
      simp only [hw] at hgo
      split at hgo
      · cases hgo
        exact h.frame rfl rfl id (by grind -ring -linarith -order)
          (by grind -ring -linarith -order [toSend])
      · split at hgo <;> cases hgo
        exact h.frame rfl rfl id (by grind -ring -linarith -order)
          (by grind -ring -linarith -order [toSend])
  | stopping after =>
      simp only [hw] at hgo
      split at hgo
      · cases hgo
        unfold fail
        split
        · exact h.frame rfl rfl id (by grind -ring -linarith -order [close])
            (by grind -ring -linarith -order [toSend, close])
        · exact h.frame rfl rfl id (by grind -ring -linarith -order)
            (by grind -ring -linarith -order [toSend])
      · split at hgo <;> cases hgo
        unfold fail
        split
        · exact h.frame rfl rfl id (by grind -ring -linarith -order [close])
            (by grind -ring -linarith -order [toSend, close])
        · exact h.frame rfl rfl id (by grind -ring -linarith -order)
            (by grind -ring -linarith -order [toSend])
  | joining =>
      simp only [hw] at hgo
      split at hgo <;> cases hgo
      exact h.frame rfl rfl id (by grind -ring -linarith -order [close])
        (by grind -ring -linarith -order [toSend, close])

theorem take_drop_append (l : List UInt8) (n m : ℕ) :
    (l.drop n).take m ++ l.drop (n + m) = l.drop n := by
  rw [← List.drop_drop, List.take_append_drop]

/-- The encoder's side moves a cut: the line is as it was. -/
theorem Flow.moved (h : Flow s) (hfed : s'.fed = s.fed) (haccepted : s'.accepted = s.accepted)
    (hopen : s.thread.sinkOpen = true) (hthread : s'.thread = s.thread)
    (hsend : s'.failed = s.failed ∧ s'.writer.view.closed = s.writer.view.closed ∧
      s'.toSend = s.toSend ∧ s'.writer.view.ending = s.writer.view.ending)
    (hway : s.endOnWay → s'.endOnWay)
    (hcur : s'.source.isIdle = false → s'.cur = [])
    (hended : s'.ended = true →
      s'.read = s'.accepted ∧ s'.writer.view.ending = true ∧ s'.source.isIdle = true)
    (hheld : s'.source.held = some [] →
      s'.input = [] ∧ s.fed = s.accepted ∧ s.writer.view.ending = true)
    (hin : [] ∈ s'.input → [] ∈ s.input ∧ ∀ pre, s.input = pre ++ [[]] → [] ∉ pre →
      ∃ pre, s'.input = pre ++ [[]] ∧ [] ∉ pre) : Flow s' := by
  have hending (he : s.writer.view.ending = true) : s'.writer.view.ending = true :=
    hsend.2.2.2.trans he
  obtain ⟨-, h2, h3, h4, -, -, -, h7⟩ := h
  constructor
  case read => intro ho; rw [hthread, hopen] at ho; cases ho
  case fed => intro _; rw [hfed, haccepted]; exact h2 hopen
  case kept =>
    intro hf hc _
    rw [hfed, hsend.2.2.1, haccepted]
    exact h3 (hsend.1 ▸ hf) (hsend.2.1 ▸ hc) hopen
  case sent =>
    intro hf hc _ he
    exact hway (h4 (hsend.1 ▸ hf) (hsend.2.1 ▸ hc) hopen (hsend.2.2.2 ▸ he))
  case cur => exact hcur
  case ended => exact hended
  case endHeld =>
    intro he
    obtain ⟨hi, ha, hw⟩ := hheld he
    exact ⟨hi, by rw [hfed, haccepted, ha], hending hw⟩
  case endIn =>
    intro _ he
    obtain ⟨hm, hpre⟩ := hin he
    obtain ⟨⟨pre, hi, hnot⟩, ha, hw⟩ := h7 hopen hm
    exact ⟨hpre pre hi hnot, by rw [hfed, haccepted, ha], hending hw⟩

theorem readCall_flow (h : Flow s) {n : ℕ} (hgo : s.readCall n = some s') : Flow s' := by
  obtain rfl | ⟨hthread, hsource, hended, ⟨k, rfl⟩ | ⟨hleft, rfl⟩⟩ := readCall_cases hgo
  · exact h
  all_goals have hopen : s.thread.sinkOpen = true := by rw [hthread]; rfl
  · refine h.moved ?_ rfl hopen rfl ⟨rfl, rfl, rfl, rfl⟩ id h.cur (fun he => absurd he hended)
      h.endHeld fun hm => ⟨hm, fun pre hi hnot => ⟨pre, hi, hnot⟩⟩
    simp only [fed, List.append_assoc]
    rw [← List.append_assoc (List.take _ _), take_drop_append]
  · refine h.moved ?_ rfl hopen rfl ⟨rfl, rfl, rfl, rfl⟩ ?_ (fun _ => rfl)
      (fun he => absurd he hended) ?_ fun hm => ⟨hm, fun pre hi hnot => ⟨pre, hi, hnot⟩⟩
    · simp only [fed, hleft, hsource, Source.held, List.drop_nil]
    · simp [endOnWay, hsource, Source.held]
    · intro he
      simp [Source.held] at he

theorem wake_ending (w : Writer) (h : w.view.ending = true) : w.wake.view.ending = true := by
  simpa [View.ending, Writer.wake_view] using h

theorem woken_send (s : Pipe) : s.failed = s.failed ∧
    s.writer.wake.view.closed = s.writer.view.closed ∧
    s.writer.wake.view.chunk ++ s.fill ++ s.writer.wake.view.rest = s.toSend ∧
    s.writer.wake.view.ending = s.writer.view.ending := by
  simp [toSend, View.ending, Writer.wake_view]

theorem Shape.sinkOpen_of_reading (hs : Shape s) (hsource : s.source.isIdle = false) :
    s.thread.sinkOpen = true := by
  by_contra ho
  have hencodes : s.thread.encodes = false := by
    cases ht : s.thread <;> simp_all [Thread.sinkOpen, Thread.encodes]
  simp [hs.sourceIdle hencodes] at hsource

theorem sourceGo_flow (hs : Shape s) (h : Flow s) (hgo : s.sourceGo = some s') : Flow s' := by
  have hopen := hs.sinkOpen_of_reading
  have hended (hsource : s.source.isIdle = false) : ¬ s.ended = true := fun he => by
    simp [(h.ended he).2.2] at hsource
  obtain ⟨n, hsource, hrecv⟩ | ⟨n, received, hsource, -, hnotify⟩ := sourceGo_cases hgo
  · have hidle : s.source.isIdle = false := by rw [hsource]; rfl
    obtain ⟨chunk, rest, hinput, rfl⟩ | ⟨-, -, rfl⟩ := hrecv
    · refine h.moved ?_ rfl (hopen hidle) rfl ⟨rfl, rfl, rfl, rfl⟩ ?_ (fun _ => h.cur hidle)
        (fun he => absurd he (hended hidle)) ?_ ?_
      · simp [fed, hsource, hinput, Source.held]
      · simp only [endOnWay, hsource, hinput, Source.held, List.mem_cons, Option.some.injEq,
          reduceCtorEq, false_or, eq_comm (a := ([] : List UInt8)), imp_self]
      · intro he
        obtain rfl : chunk = [] := by simpa [Source.held] using he
        obtain ⟨⟨pre, hpre, hnot⟩, ha, hw⟩ :=
          h.endIn (hopen hidle) (by rw [hinput]; exact List.mem_cons_self)
        refine ⟨?_, ha, hw⟩
        cases pre with
        | nil => simpa [hinput] using hpre
        | cons first pre => simp_all
      · intro hm
        refine ⟨by rw [hinput]; exact List.mem_cons_of_mem _ hm, fun pre hpre hnot => ?_⟩
        cases pre with
        | nil => simp_all
        | cons first pre => exact ⟨pre, by simp_all, by simp_all⟩
    · refine h.moved ?_ rfl (hopen hidle) rfl ⟨rfl, rfl, rfl, rfl⟩ ?_ (fun _ => h.cur hidle)
        (fun he => absurd he (hended hidle)) ?_ ?_
      · simp [fed, hsource, Source.held]
      · simp [endOnWay, hsource, Source.held]
      · intro he
        simp [Source.held] at he
      · exact fun hm => ⟨hm, fun pre hi hnot => ⟨pre, hi, hnot⟩⟩
  · have hidle : s.source.isIdle = false := by rw [hsource]; rfl
    have hcur := h.cur hidle
    have hsame (hm : [] ∈ s.input) : [] ∈ s.input ∧ ∀ pre, s.input = pre ++ [[]] → [] ∉ pre →
        ∃ pre, s.input = pre ++ [[]] ∧ [] ∉ pre :=
      ⟨hm, fun pre hi hnot => ⟨pre, hi, hnot⟩⟩
    have hnone {c : List UInt8} (he : Source.held .idle = some c) : False := by
      simp [Source.held] at he
    obtain ⟨rfl, rfl⟩ | ⟨rfl, rfl⟩ | ⟨chunk, k, rfl, hchunk, rfl⟩ := hnotify
    · refine h.moved ?_ rfl (hopen hidle) rfl (woken_send s) ?_ (fun _ => hcur)
        (fun he => absurd he (hended hidle)) (fun he => (hnone he).elim) hsame
      · simp [fed, hsource, Source.held]
      · simp [endOnWay, hsource, Source.held]
    · obtain ⟨hinput, ha, hw⟩ := h.endHeld (by rw [hsource]; rfl)
      refine h.moved ?_ rfl (hopen hidle) rfl (woken_send s) (fun _ => .inl rfl)
        (fun _ => hcur) (fun _ => ⟨?_, wake_ending _ hw, rfl⟩) (fun he => (hnone he).elim) hsame
      · simp [fed, hsource, Source.held]
      · rw [← ha]
        simp [fed, hcur, hinput, hsource, Source.held]
    · refine h.moved ?_ rfl (hopen hidle) rfl (woken_send s) ?_ (fun hi => ?_)
        (fun he => absurd he (hended hidle)) (fun he => (hnone he).elim) hsame
      · simp only [fed, hsource, hcur, Source.held, List.drop_nil, Option.getD_none,
          Option.getD_some, List.append_nil, List.append_assoc]
        rw [← List.append_assoc (List.take _ _), List.take_append_drop]
      · simp [endOnWay, hsource, Source.held, hchunk]
      · simp [Source.isIdle] at hi

/-- A step of the thread's other hand, or a wake-up. -/
theorem Flow.woken (h : Flow s) (hpassage : s'.passage = s.passage)
    (haccepted : s'.accepted = s.accepted) (hfailed : s'.failed = s.failed)
    (hfill : s'.fill = s.fill) (hwriter : s'.writer = s.writer ∨ s'.writer = s.writer.wake)
    (hopen : s'.thread.sinkOpen = true → s.thread.sinkOpen = true) : Flow s' := by
  refine h.frame hpassage haccepted hopen ?_ ?_
  · rcases hwriter with hw | hw <;> rw [hw]
    · exact id
    · exact wake_ending _
  · intro hf hc _
    refine ⟨hfailed ▸ hf, ?_, ?_, ?_⟩
    · rcases hwriter with hw | hw <;> simpa [hw, Writer.wake_view] using hc
    · rcases hwriter with hw | hw <;> simp [toSend, hw, hfill, Writer.wake_view]
    · rcases hwriter with hw | hw <;> simp [View.ending, hw, Writer.wake_view]

theorem put_flow (h : Flow s) {data : List UInt8} (hgo : s.put data = some s') : Flow s' := by
  obtain ⟨-, ok, -, rfl | rfl⟩ := put_cases hgo
  · exact h.woken rfl rfl rfl rfl (.inl rfl) id
  · exact h.woken rfl rfl rfl rfl (.inl rfl) id

theorem sinkGo_flow (h : Flow s) (hgo : s.sinkGo = some s') : Flow s' := by
  obtain ⟨full, -, ⟨-, rfl⟩ | ⟨-, rfl⟩⟩ | ⟨-, -, rfl⟩ := sinkGo_cases hgo
  · exact h.woken rfl rfl rfl rfl (.inl rfl) id
  · exact h.woken rfl rfl rfl rfl (.inl rfl) id
  · exact h.woken rfl rfl rfl rfl (.inr rfl) id

theorem encoderEnds_flow (h : Flow s) {r : ThreadEnd} (hgo : s.encoderEnds r = some s') :
    Flow s' := by
  obtain ⟨hthread, -, ok, -, hends⟩ := encoderEnds_cases hgo
  have hopen : s.thread.sinkOpen = true := by rw [hthread]; rfl
  obtain ⟨-, -, rfl⟩ | ⟨-, rfl⟩ | ⟨-, rfl⟩ := hends
  all_goals exact h.woken rfl rfl rfl rfl (.inl rfl) fun _ => hopen

theorem threadGo_flow (hs : Shape s) (h : Flow s) (hgo : s.threadGo = some s') : Flow s' := by
  obtain ⟨ok, r, hthread, -, rfl⟩ | ⟨r, hthread, rfl⟩ | ⟨r, hthread, rfl⟩ |
    ⟨r, hthread, -, rfl⟩ := threadGo_cases hgo
  · exact h.woken rfl rfl rfl rfl (.inl rfl) fun _ => by rw [hthread]; rfl
  · exact h.woken rfl rfl rfl rfl (.inl rfl) fun _ => by rw [hthread]; rfl
  · -- what the channel held is gone, and the source reads no more
    have hsource : s.source.isIdle = true := hs.sourceIdle (by rw [hthread]; rfl)
    have hread := h.read (by rw [hthread]; rfl)
    refine ⟨fun _ => hread, fun ho => (by cases ho), fun _ _ ho => (by cases ho),
      fun _ _ ho => (by cases ho), h.cur, h.ended, ?_, fun ho => (by cases ho)⟩
    intro he
    cases hidle : s.source <;> simp_all [Source.isIdle, Source.held]
  · exact h.woken rfl rfl rfl rfl (.inr rfl) fun ho => by cases ho

theorem drop_flow (h : Flow s) (hgo : s.drop = some s') : Flow s' := by
  obtain ⟨hidle, rfl⟩ := drop_cases hgo
  exact h.frame rfl rfl id (by grind -ring -linarith -order [close])
    (by grind -ring -linarith -order [close])

theorem wake_flow (h : Flow s) (hgo : s.wake = some s') : Flow s' := by
  obtain rfl := wake_cases hgo
  exact h.woken rfl rfl rfl rfl (.inr rfl) id

/-- What was read and accepted is as it was, and the caller's hand no fuller. -/
def Lighter (s s' : Pipe) : Prop :=
  s'.read = s.read ∧ s'.accepted = s.accepted ∧ s'.failed = s.failed ∧
    (s'.writer.view.closed = false →
      s.writer.view.closed = false ∧ s'.toSend.length ≤ s.toSend.length)

theorem resume_lighter {after : After} (hw : s.writer = .drain after) :
    s.Lighter (s.resume after) := by
  cases after with
  | owned data =>
      unfold Pipe.resume
      dsimp only
      split
      · exact ⟨rfl, rfl, rfl, fun _ => ⟨by rw [hw]; rfl, by simp [toSend, hw, Writer.view]⟩⟩
      · refine ⟨rfl, rfl, rfl, fun _ => ⟨by rw [hw]; rfl, ?_⟩⟩
        simp [toSend, hw, Writer.view, After.rest, Nat.add_comm]
  | _ =>
      refine ⟨rfl, rfl, rfl, fun _ => ⟨by rw [hw]; rfl, ?_⟩⟩
      simp [toSend, hw, Writer.view, After.rest, Pipe.resume]

theorem fail_lighter {after : After} (hw : s.writer = .stopping after) (joined : Bool)
    (e : PipeError) : s.Lighter ({ s with joined }.fail after e) := by
  unfold fail
  split
  · exact ⟨rfl, rfl, rfl, fun hc => by cases hc⟩
  · exact ⟨rfl, rfl, rfl, fun _ => ⟨by rw [hw]; rfl, by simp [toSend, hw, Writer.view]⟩⟩

theorem stop_lighter (hclosed : s.writer.view.closed = false) (after : After) :
    s.Lighter (s.stop after) :=
  ⟨rfl, rfl, rfl, fun _ => ⟨hclosed, by simp [toSend, Writer.view, stop]; omega⟩⟩

/-- The caller's hand only gets emptier inside a call. -/
theorem go_lighter (hgo : s.go = some s') : s.Lighter s' := by
  unfold go at hgo
  cases hw : s.writer with
  | idle result => simp [hw] at hgo
  | closed result => simp [hw] at hgo
  | asleep chunk after => simp [hw] at hgo
  | loop rest =>
      simp only [hw] at hgo
      split at hgo
      · cases hgo
        exact ⟨rfl, rfl, rfl, fun _ =>
          ⟨by rw [hw]; rfl, by simp [toSend, hw, Writer.view, After.rest]⟩⟩
      · split at hgo <;> cases hgo
        · exact ⟨rfl, rfl, rfl, fun _ =>
            ⟨by rw [hw]; rfl, by simp [toSend, hw, Writer.view, After.rest]⟩⟩
        · exact ⟨rfl, rfl, rfl, fun _ => ⟨by rw [hw]; rfl, by simp [toSend, hw, Writer.view]⟩⟩
  | lock chunk after | woken chunk after =>
      simp only [hw, Option.some.injEq] at hgo
      subst hgo
      exact ⟨rfl, rfl, rfl, fun _ => ⟨by rw [hw]; rfl, by simp [toSend, hw, Writer.view]⟩⟩
  | trySend chunk after =>
      simp only [hw] at hgo
      split at hgo
      · cases hgo
        exact stop_lighter (by rw [hw]; rfl) after
      split at hgo
      · cases hgo
        exact stop_lighter (by rw [hw]; rfl) after
      split at hgo <;> cases hgo
      · exact ⟨rfl, rfl, rfl, fun _ => ⟨by rw [hw]; rfl, by simp [toSend, hw, Writer.view]⟩⟩
      · exact ⟨rfl, rfl, rfl, fun _ => ⟨by rw [hw]; rfl, by simp [toSend, hw, Writer.view]⟩⟩
  | tryRecv chunk after =>
      simp only [hw] at hgo
      split at hgo
      · cases hgo
        refine ⟨rfl, rfl, rfl, fun _ => ⟨by rw [hw]; rfl, ?_⟩⟩
        simp [toSend, hw, Writer.view, Back.view]
      · split at hgo <;> cases hgo
        · exact ⟨rfl, rfl, rfl, fun _ => ⟨by rw [hw]; rfl, by simp [toSend, hw, Writer.view]⟩⟩
        · exact stop_lighter (by rw [hw]; rfl) after
  | append got back =>
      simp only [hw] at hgo
      cases back <;> cases hgo <;>
        exact ⟨rfl, rfl, rfl, fun _ =>
          ⟨by rw [hw]; rfl, by simp [toSend, hw, Writer.view, Back.view]⟩⟩
  | drain after =>
      simp only [hw] at hgo
      split at hgo <;> cases hgo
      · refine ⟨rfl, rfl, rfl, fun _ => ⟨by rw [hw]; rfl, ?_⟩⟩
        simp [toSend, hw, Writer.view, Back.view]
      · exact resume_lighter hw
  | last =>
      simp only [hw] at hgo
      split at hgo
      · cases hgo
        refine ⟨rfl, rfl, rfl, fun _ => ⟨by rw [hw]; rfl, ?_⟩⟩
        simp [toSend, hw, Writer.view, Back.view]
      · split at hgo <;> cases hgo
        exact ⟨rfl, rfl, rfl, fun _ => ⟨by rw [hw]; rfl, by simp [toSend, hw, Writer.view]⟩⟩
  | stopping after =>
      simp only [hw] at hgo
      split at hgo
      · cases hgo
        exact fail_lighter hw s.joined _
      · split at hgo <;> cases hgo
        rw [← hw]
        exact fail_lighter hw true _
  | joining =>
      simp only [hw] at hgo
      split at hgo <;> cases hgo
      exact ⟨rfl, rfl, rfl, fun hc => by cases hc⟩

theorem Lighter.apart (h : s.Lighter s') (ha : Apart s) : Apart s' := by
  obtain ⟨hread, haccepted, hfailed, hsend⟩ := h
  intro hf hc
  have hroom := ha (hfailed ▸ hf) (hsend hc).1
  rw [hread, haccepted]
  exact Nat.le_trans (Nat.add_le_add_left (hsend hc).2 _) hroom

/-- A call brings what it adds to the caller's hand. -/
theorem call_apart (ha : Apart s) {c : Call} (hgo : s.call c = some s') : Apart s' := by
  intro hf hc
  unfold call at hgo
  split at hgo
  case h_2 => cases hgo
  case h_1 _ _ hw =>
    have hroom : s.failed = false → s.read.length + s.fill.length ≤ s.accepted.length := by
      intro hf
      have := ha hf (by rw [hw]; rfl)
      simpa [toSend, hw, Writer.view] using this
    cases c with
    | write data =>
        cases hgo
        have := hroom hf
        simp [toSend, Writer.view]
        omega
    | writeOwned data =>
        simp only [sendFill, Pipe.resume] at hgo
        split at hgo
        · split at hgo <;> cases hgo <;> have := hroom hf <;>
            simp_all [toSend, Writer.view, After.rest]
        · cases hgo
          have := hroom hf
          simp [toSend, Writer.view, After.rest]
          omega
    | finish =>
        simp only [sendFill, Pipe.resume] at hgo
        split at hgo <;> cases hgo <;> have := hroom hf <;>
          simp_all [toSend, Writer.view, After.rest]

theorem refuse_apart (ha : Apart s) (hgo : s.refuse = some s') : Apart s' := by
  obtain ⟨rest, hw, hfill, rfl⟩ | ⟨e, hclosed, ⟨hending, rfl⟩ | rfl⟩ := refuse_cases hgo
  · intro hf _
    have hroom := ha hf (by rw [hw]; rfl)
    simp [toSend, Writer.view, hw, hfill] at hroom ⊢
    omega
  · exact fun hf => by cases hf
  · exact fun hf => by cases hf

/-- A step of the thread that reads nothing. -/
theorem Apart.woken (ha : Apart s) (hread : s'.read = s.read) (haccepted : s'.accepted = s.accepted)
    (hfailed : s'.failed = s.failed) (hfill : s'.fill = s.fill)
    (hwriter : s'.writer = s.writer ∨ s'.writer = s.writer.wake) : Apart s' := by
  refine Lighter.apart ⟨hread, haccepted, hfailed, fun hc => ⟨?_, Nat.le_of_eq ?_⟩⟩ ha
  · rcases hwriter with hw | hw <;> simpa [hw, Writer.wake_view] using hc
  · rcases hwriter with hw | hw <;> simp [toSend, hw, hfill, Writer.wake_view]

/-- Once the thread is without its output it reads nothing; before, what is in hand comes after
what is on its way. -/
theorem step_apart (hs : Shape s) (ha : Apart s) (h' : Flow s') {a : Act}
    (hgo : s.step a = some s') : Apart s' := by
  cases hopen : s'.thread.sinkOpen with
  | true =>
      intro hf hc
      rw [← h'.kept hf hc hopen, List.length_append]
      exact Nat.add_le_add_right (List.IsPrefix.length_le s'.read_isPrefix) _
  | false =>
      have hencodes (ht : s'.thread = .encoding) : False := by
        rw [ht] at hopen
        cases hopen
      cases a with
      | call c => exact call_apart ha hgo
      | drop =>
          obtain ⟨-, rfl⟩ := drop_cases hgo
          exact fun _ hc => by cases hc
      | go => exact (go_lighter hgo).apart ha
      | refuse => exact refuse_apart ha hgo
      | wake =>
          obtain rfl := wake_cases hgo
          exact ha.woken rfl rfl rfl rfl (.inr rfl)
      | read n =>
          obtain rfl | ⟨hthread, -, -, ⟨k, rfl⟩ | ⟨-, rfl⟩⟩ := readCall_cases hgo
          · exact ha
          · exact (hencodes hthread).elim
          · exact (hencodes hthread).elim
      | sourceGo =>
          have hthread : s'.thread = s.thread := by
            obtain ⟨n, -, ⟨_, _, -, rfl⟩ | ⟨-, -, rfl⟩⟩ |
              ⟨n, _, -, -, ⟨-, rfl⟩ | ⟨-, rfl⟩ | ⟨_, _, -, -, rfl⟩⟩ := sourceGo_cases hgo
            all_goals rfl
          have hsource : s.source.isIdle = false := by
            obtain ⟨n, hsource, -⟩ | ⟨n, received, hsource, -⟩ := sourceGo_cases hgo
            all_goals rw [hsource]; rfl
          rw [hthread, hs.sinkOpen_of_reading hsource] at hopen
          cases hopen
      | put data =>
          obtain ⟨-, ok, -, rfl | rfl⟩ := put_cases hgo
          · exact ha.woken rfl rfl rfl rfl (.inl rfl)
          · exact ha.woken rfl rfl rfl rfl (.inl rfl)
      | sinkGo =>
          obtain ⟨full, -, ⟨-, rfl⟩ | ⟨-, rfl⟩⟩ | ⟨-, -, rfl⟩ := sinkGo_cases hgo
          · exact ha.woken rfl rfl rfl rfl (.inl rfl)
          · exact ha.woken rfl rfl rfl rfl (.inl rfl)
          · exact ha.woken rfl rfl rfl rfl (.inr rfl)
      | encoderEnds r =>
          obtain ⟨-, -, ok, -, ⟨-, -, rfl⟩ | ⟨-, rfl⟩ | ⟨-, rfl⟩⟩ := encoderEnds_cases hgo
          all_goals exact ha.woken rfl rfl rfl rfl (.inl rfl)
      | threadGo =>
          obtain ⟨ok, r, -, -, rfl⟩ | ⟨r, -, rfl⟩ | ⟨r, -, rfl⟩ | ⟨r, -, -, rfl⟩ :=
            threadGo_cases hgo
          · exact ha.woken rfl rfl rfl rfl (.inl rfl)
          · exact ha.woken rfl rfl rfl rfl (.inl rfl)
          · exact ha.woken rfl rfl rfl rfl (.inl rfl)
          · exact ha.woken rfl rfl rfl rfl (.inr rfl)

theorem step_flow (hs : Shape s) (h : Flow s) (ha : Apart s) {a : Act}
    (hgo : s.step a = some s') : Flow s' := by
  cases a with
  | call c => exact call_flow h hgo
  | drop => exact drop_flow h hgo
  | go => exact go_flow hs h hgo
  | refuse => exact refuse_flow hs h ha hgo
  | wake => exact wake_flow h hgo
  | read n => exact readCall_flow h hgo
  | sourceGo => exact sourceGo_flow hs h hgo
  | put data => exact put_flow h hgo
  | sinkGo => exact sinkGo_flow h hgo
  | encoderEnds r => exact encoderEnds_flow h hgo
  | threadGo => exact threadGo_flow hs h hgo

end Pipe
end LzmaTurbo.Enc
