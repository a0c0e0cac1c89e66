import LzmaTurbo.Filters.Bcj2CursorLaws
import LzmaTurbo.Filters.Bcj2DecCalls
import LzmaTurbo.Filters.Bcj2EncCalls

/-!
# BCJ2 in pieces
-/
namespace LzmaTurbo.Filters
open Bcj2Dec Bcj2Enc

/-- BCJ2 is the same in pieces and whole, on both sides. The decoder takes the call and the
jump stream by the word, and a call on anything else is refused and changes nothing. Its cursor
port makes no access outside its slices and comes to the same end. -/
theorem bcj2_calls :
    (∀ (ip : UInt32) (es : List Refill), (∀ e ∈ es, e.Aligned) → es ≠ [] →
        SameEnd (decodeCalls (withIp ip) noStreams es)
          (decodeChecked (withIp ip) (together es (decodeCalls (withIp ip) noStreams es)))) ∧
      (∀ (ip : UInt32) (done rest : List Refill), (∀ e ∈ done ++ rest, e.Aligned) → done ≠ [] →
        (decodeCalls (withIp ip) noStreams done).2.2.dest <+:
            (decodeCalls (withIp ip) noStreams (done ++ rest)).2.2.dest ∧
          ((decodeCalls (withIp ip) noStreams done).1 = .ok () →
            (∀ i, (decodeCalls (withIp ip) noStreams done).2.1.requiredInput = some i →
              streamOf (decodeCalls (withIp ip) noStreams done).2.2 i = []) ∧
            ((decodeCalls (withIp ip) noStreams done).2.1.requiredInput = none →
              (decodeCalls (withIp ip) noStreams done).2.2.room = 0))) ∧
      (∀ (d : Bcj2Dec) (s : Bcj2DecStreams), ¬s.Aligned →
        decodeChecked d s = (.error .unalignedStream, d, s)) ∧
      (∀ (d : Bcj2Dec) (s : Bcj2DecStreams) (spare : List UInt8), spare.length = s.room →
        ∃ rest, rest <:+ spare ∧ rest.length = (decodeChecked d s).2.2.room ∧
          cursorDecode d s spare = .ok (decodeChecked d s, rest)) ∧
      ∀ (ip fileIp fileSizeMinus1 : UInt64) (relatLimit : UInt32) (cs : List EncCall),
        InOrder false cs →
        (encodeCall (encStart ip fileIp fileSizeMinus1 relatLimit)
            (wholeCall (sourceOf cs))).1.isFinished = true ∧
          (∀ done rest, cs = done ++ rest →
            (written (encodeCalls (encStart ip fileIp fileSizeMinus1 relatLimit) done).2.1).Begins
              (written (encodeCall (encStart ip fileIp fileSizeMinus1 relatLimit)
                (wholeCall (sourceOf cs))).2.1)) ∧
          (endsWith false cs = true →
            (encodeCalls (encStart ip fileIp fileSizeMinus1 relatLimit) cs).1.isFinished = true ∨
              ∃ i, (encodeCalls (encStart ip fileIp fileSizeMinus1 relatLimit) cs).1.fullStream =
                  some i ∧
                isFull (encodeCalls (encStart ip fileIp fileSizeMinus1 relatLimit) cs).2.1 i) ∧
          ((encodeCalls (encStart ip fileIp fileSizeMinus1 relatLimit) cs).1.isFinished = true →
            written (encodeCalls (encStart ip fileIp fileSizeMinus1 relatLimit) cs).2.1 =
                written (encodeCall (encStart ip fileIp fileSizeMinus1 relatLimit)
                  (wholeCall (sourceOf cs))).2.1 ∧
              (encodeCalls (encStart ip fileIp fileSizeMinus1 relatLimit) cs).1.temp = [] ∧
              (encodeCalls (encStart ip fileIp fileSizeMinus1 relatLimit) cs).2.2 = []) := by
  refine ⟨fun ip es hes hne => decodeCalls_sameEnd ip hes hne,
    fun ip done rest hes hdone => decodeCalls_way ip hes hdone, fun d s hs => ?_,
    fun d s spare hroom => cursorDecode_eq d s hroom,
    fun ip fileIp fileSizeMinus1 relatLimit cs horder => ?_⟩
  · unfold decodeChecked decodeWith
    exact if_pos hs
  · obtain ⟨hway, hend⟩ := encodeCalls_whole ip fileIp fileSizeMinus1 relatLimit horder
    exact ⟨wholeCall_finished ip fileIp fileSizeMinus1 relatLimit (sourceOf cs), hway,
      encodeCalls_stopped (encStart_good ip fileIp fileSizeMinus1 relatLimit) horder, hend⟩

/-- A byte of the call stream that is not a word is met only by the call that is offered it;
offered all at once it keeps the others from being decoded. -/
theorem bcj2_calls_odd_byte :
    ¬∀ (ip : UInt32) (es : List Refill), es ≠ [] →
      SameEnd (decodeCalls (withIp ip) noStreams es)
        (decodeChecked (withIp ip) (together es (decodeCalls (withIp ip) noStreams es))) := by
  intro h
  have hdest := (h 0 [⟨[0x41], [], [], [0, 0, 0, 0, 0], 1⟩, ⟨[], [0], [], [], 0⟩]
    (List.cons_ne_nil _ _)).dest
  revert hdest
  decide +kernel

end LzmaTurbo.Filters
