import LzmaTurbo.Xz.ReaderReturns

/-!
# What a turn does to a reader

The fields a turn outside a block changes, and how long the chain of a header is.
-/
namespace LzmaTurbo.Xz
open Machine Lzma2 Filters Mt

theorem kind_maxCarry_le (k : BcjKind) : k.maxCarry ≤ 15 := by
  cases k <;> decide

theorem Conv.maxCarry_le (c : Conv) : c.maxCarry ≤ 15 := by
  cases c with
  | delta d => exact Nat.zero_le _
  | bcj b => exact kind_maxCarry_le b.kind

theorem stages_length {filters : List FilterFlags} {stages : List Stage}
    (h : filters.mapM FilterFlags.stage = .ok stages) : stages.length = filters.length := by
  induction filters generalizing stages with
  | nil =>
      cases h
      rfl
  | cons f filters ih =>
      rw [List.mapM_cons] at h
      obtain ⟨s, -, h⟩ := bind_eq_ok h
      obtain ⟨rest, hrest, h⟩ := bind_eq_ok h
      cases h
      exact congrArg (· + 1) (ih hrest)

theorem FilterChain.build_carry {chain : FilterChain} {c : Converters} (h : chain.build = .ok c) :
    c.maxCarry ≤ 15 * chain.converters.length := by
  unfold FilterChain.build at h
  obtain ⟨stages, hstages, h⟩ := bind_eq_ok h
  cases h
  rw [← stages_length hstages]
  change (stages.map fun s => s.conv.maxCarry).sum ≤ _
  clear hstages h
  induction stages with
  | nil => exact Nat.zero_le _
  | cons s stages ih =>
      rw [List.map_cons, List.sum_cons, List.length_cons]
      have hs := Conv.maxCarry_le s.conv
      omega

theorem FilterChain.validate_length {filters : List FilterFlags} {chain : FilterChain}
    (h : FilterChain.validate filters = .ok chain) : chain.converters.length ≤ maxFilters := by
  unfold FilterChain.validate at h
  split at h
  · cases h
  · split at h
    · cases h
    next hle =>
      split at h
      · cases h
      · split at h
        · cases h
        · obtain ⟨u, -, h⟩ := bind_eq_ok h
          cases h
          rw [List.length_reverse, List.length_dropLast]
          omega

/-- The filters of a header, whatever its sizes are. -/
theorem filters_chain {body : List UInt8} {n pos size : ℕ} {c u : Option ℕ}
    {header : BlockHeader} (h : (parseFilters body n pos [] >>= fun t =>
      if body.length < t.2 then .error .badBlockHeader
      else if (body.drop t.2).any (· ≠ 0) then .error .badPadding
      else FilterChain.validate t.1 >>= fun chain =>
        .ok ({ headerSize := size, compressedSize := c, uncompressedSize := u, chain } :
          BlockHeader)) = .ok header) : header.chain.converters.length ≤ maxFilters := by
  obtain ⟨t, -, h⟩ := bind_eq_ok h
  split at h
  · cases h
  · split at h
    · cases h
    · obtain ⟨chain, hchain, h⟩ := bind_eq_ok h
      cases h
      exact FilterChain.validate_length hchain

theorem BlockHeader.parse_chain {crc : LzmaTurbo.Crc.Digest UInt32} {buf : List UInt8}
    {header : BlockHeader} (h : BlockHeader.parse crc buf = .ok header) :
    header.chain.converters.length ≤ maxFilters := by
  unfold BlockHeader.parse at h
  split at h
  · cases h
  · split at h
    · cases h
    · dsimp only at h
      split at h
      · cases h
      · split at h
        · cases h
        · split at h
          · obtain ⟨v, -, h⟩ := bind_eq_ok h
            split at h
            · obtain ⟨c, hc, -⟩ := bind_eq_ok h
              cases hc
            · obtain ⟨c, -, h⟩ := bind_eq_ok h
              split at h
              · obtain ⟨w, -, h⟩ := bind_eq_ok h
                obtain ⟨u, -, h⟩ := bind_eq_ok h
                exact filters_chain h
              · obtain ⟨u, -, h⟩ := bind_eq_ok h
                exact filters_chain h
          · obtain ⟨c, -, h⟩ := bind_eq_ok h
            split at h
            · obtain ⟨w, -, h⟩ := bind_eq_ok h
              obtain ⟨u, -, h⟩ := bind_eq_ok h
              exact filters_chain h
            · obtain ⟨u, -, h⟩ := bind_eq_ok h
              exact filters_chain h

namespace XzReader
variable {C : Checks} {r r' : XzReader C}

theorem take_ok {n : ℕ} {bytes : List UInt8} (h : r.take n = .ok (bytes, r')) :
    ∃ src, r' = { r with src } := by
  unfold take at h
  split at h
  · cases h
  next bytes' src _ =>
    cases h
    exact ⟨src, rfl⟩

theorem streamHeader_ok (h : r.streamHeader = .ok r') : ∃ src flags checkSize fold,
    r' = { r with src, flags, checkSize, blockNo := 0, fold, state := .blockOrIndex } := by
  unfold streamHeader at h
  obtain ⟨⟨buf, r₁⟩, htake, h⟩ := bind_eq_ok h
  obtain ⟨src, rfl⟩ := take_ok htake
  obtain ⟨flags, -, h⟩ := bind_eq_ok h
  dsimp only at h
  split at h
  · cases h
  · cases h
    exact ⟨src, flags, _, _, rfl⟩

/-- The limits a header gives its block. -/
def blockLimits (r : XzReader C) (header : BlockHeader) : BlockLimits :=
  { memoryLimit := r.opts.memoryLimit, uncompressedSize := header.uncompressedSize
    compressedSize := header.compressedSize, maxBlockSize := r.blockCap }

/-- The header a reader comes to. -/
def HeaderAt (r : XzReader C) (header : BlockHeader) : Prop :=
  ∃ first r₁ size rest r₂, r.take 1 = .ok (first, r₁) ∧
    headerSizeFromFirstByte (first.getD 0 0) = some size ∧ r₁.take (size - 1) = .ok (rest, r₂) ∧
    BlockHeader.parse crc32Iso (first ++ rest) = .ok header

theorem blockOrIndex_ok (h : r.blockOrIndex = .ok r') :
    (∃ src, r' = { r with src, state := .index }) ∨
    ∃ header src dec size, HeaderAt r header ∧
      r' = { r with src, dec := some dec, blockHeaderSize := size, state := .block } ∧
      BlockDecoder.new header.chain r.flags.check r.totalOut r.opts.verifyChecks
        (r.blockLimits header) = .ok dec := by
  unfold blockOrIndex at h
  obtain ⟨⟨first, r₁⟩, htake, h⟩ := bind_eq_ok h
  obtain ⟨src, rfl⟩ := take_ok htake
  dsimp only at h
  split at h
  · cases h
    exact .inl ⟨src, rfl⟩
  next size hsize =>
    obtain ⟨⟨rest, r₂⟩, htake₂, h⟩ := bind_eq_ok h
    obtain ⟨src₂, rfl⟩ := take_ok htake₂
    obtain ⟨header, hheader, h⟩ := bind_eq_ok h
    obtain ⟨dec, hdec, h⟩ := bind_eq_ok h
    cases h
    exact .inr ⟨header, src₂, dec, size, ⟨first, _, size, rest, _, htake, hsize, htake₂,
      fail_ok hheader⟩, rfl, fail_ok hdec⟩

theorem blockTail_ok (h : r.blockTail = .ok r') : ∃ src fold,
    r' = { r with src, dec := none, fold, blockNo := r.blockNo + 1, state := .blockOrIndex } := by
  unfold blockTail at h
  obtain ⟨⟨buf, r₁⟩, htake, h⟩ := bind_eq_ok h
  obtain ⟨src, rfl⟩ := take_ok htake
  obtain ⟨padding, -, h⟩ := bind_eq_ok h
  dsimp only at h
  split at h
  · cases h
  · split at h
    · cases h
    · obtain ⟨u, -, h⟩ := bind_eq_ok h
      obtain ⟨fold, -, h⟩ := bind_eq_ok h
      cases h
      exact ⟨src, fold, rfl⟩

theorem indexTurn_ok (h : r.indexTurn = .ok r') :
    ∃ src indexSize, r' = { r with src, indexSize, state := .footer } := by
  unfold indexTurn at h
  obtain ⟨⟨src, size⟩, -, h⟩ := bind_eq_ok h
  cases h
  exact ⟨src, size, rfl⟩

theorem footer_ok (h : r.footer = .ok r') :
    ∃ src, r' = { r with src, stream := r.stream + 1, state := .padding } := by
  unfold footer at h
  obtain ⟨⟨buf, r₁⟩, htake, h⟩ := bind_eq_ok h
  obtain ⟨src, rfl⟩ := take_ok htake
  obtain ⟨foot, -, h⟩ := bind_eq_ok h
  dsimp only at h
  split at h
  · cases h
  · split at h
    · cases h
    · cases h
      exact ⟨src, rfl⟩

theorem padding_ok {fuel : ℕ} (h : r.padding fuel = .ok r') :
    ∃ src state, r' = { r with src, state } ∧ (state = .done ∨ state = .streamHeader) := by
  induction fuel generalizing r with
  | zero => cases h
  | succ fuel ih =>
      rw [padding] at h
      dsimp only at h
      split at h
      · cases h
        exact ⟨_, _, rfl, .inl rfl⟩
      · split at h
        · cases h
        · split at h
          · cases h
          · split at h
            · obtain ⟨src, state, hr, hs⟩ := ih h
              exact ⟨src, state, hr, hs⟩
            · cases h
              exact ⟨_, _, rfl, .inr rfl⟩

end XzReader
end LzmaTurbo.Xz
