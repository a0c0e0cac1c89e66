import LzmaTurbo.Enc.MatchRuns

/-!
# Where a match finder stands

At the `P`-th byte of the input, `A` bytes behind it in the window. The tables hold positions
that the finder has passed since its first byte, a low hash only those of its own bytes, and a
link only what lies before its position. `o` is how far positions of the finder lag behind those
of the input, which changes when they start over.
-/
namespace LzmaTurbo.Enc
open Machine

/-- What the sizes of a hash-chain finder have to satisfy. -/
structure FinderConfig.Ok (c : FinderConfig) : Prop where
  kind : c.kind = .hc4 ∨ c.kind = .hc5
  numHashBytes : c.numHashBytes = c.kind.numHashBytes
  fixedHashSize : c.fixedHashSize = kFix4HashSize
  sonBase : c.fixedHashSize + c.hashMask + 1 ≤ c.sonBase
  cyclicBufferSize : c.cyclicBufferSize = c.historySize + 1
  historySize_pos : 1 ≤ c.historySize
  historySize_lt : c.historySize + 1 < 2 ^ 32
  matchMaxLen : c.numHashBytes ≤ c.matchMaxLen
  keepSizeAfter : c.matchMaxLen ≤ c.keepSizeAfter
  keepSizeBefore : c.cyclicBufferSize ≤ c.keepSizeBefore
  blockSize : c.blockSize < 2 ^ 32
  cutValue : 1 ≤ c.cutValue

/-- A window of the block's size is long enough: it is moved in time, or never. -/
def FinderConfig.Roomy (c : FinderConfig) (src : List UInt8) : Prop :=
  c.directInput = true ∨ c.keepSizeBefore + c.keepSizeAfter + kBlockMoveAlign ≤ c.blockSize ∨
    src.length + c.keepSizeAfter < c.blockSize

/-- The window holds the input up to `A` bytes behind the `P`-th. -/
structure Windowed (m : MatchFinder) (src : List UInt8) (P A : ℕ) : Prop where
  avail : m.getNumAvailableBytes = A
  pos_lt : m.pos < 2 ^ 32
  inside : P + A ≤ src.length
  window : ∀ i < m.buffer + A, m.bufBase[i]? = src[i + (P - m.buffer)]?
  buffer_le : m.buffer ≤ P
  history : m.buffer = P ∨ m.keepSizeBefore ≤ m.buffer
  block : m.directInput = false → m.blockSize ≤ m.bufBase.length
  fits : m.directInput = false → m.buffer + A ≤ m.blockSize
  rest : m.directInput = false → m.stream.data = src.drop (P + A)
  ended : m.streamEndWasReached = true → P + A = src.length
  direct : m.directInput = true → m.streamEndWasReached = true
  roomy : m.Roomy src

/-- How far the finder may go before it looks at its limits again. -/
structure Limited (m : MatchFinder) (A n : ℕ) : Prop where
  posLimit : m.posLimit = (m.pos + n) % 2 ^ 32
  pos_le : m.pos + n ≤ 2 ^ 32
  n_lt : n < 2 ^ 32
  n_le : n ≤ A
  cyclic : m.cyclicBufferPos + n ≤ m.cyclicBufferSize
  n_pos : 0 < A → 0 < n
  lenLimit : m.lenLimit + n ≤ A + 1
  lenLimit_le : m.lenLimit ≤ m.matchMaxLen
  short : m.lenLimit < m.numHashBytes → A < m.numHashBytes
  fed : m.Flowing → m.keepSizeAfter + n ≤ A

/-! ## The tables -/

def hash2At (src : List UInt8) (k : ℕ) : Option ℕ := do
  let b0 ← src[k]?
  let b1 ← src[k + 1]?
  some (hash2Of b0 b1)

def hash3At (src : List UInt8) (k : ℕ) : Option ℕ := do
  let b0 ← src[k]?
  let b1 ← src[k + 1]?
  let b2 ← src[k + 2]?
  some (hash3Of b0 b1 b2)

/-- An empty entry, or a position before `pos` whose bytes have that hash. -/
def Entry (hashAt : ℕ → Option ℕ) (o pos i v : ℕ) : Prop :=
  v = 0 ∨ 0 < v ∧ v < pos ∧ hashAt (v + o - 1) = some i

structure LowTables (src : List UInt8) (o pos : ℕ) (hash : Array ℕ) : Prop where
  two : ∀ i < kHash2Size, ∃ v, hash[i]? = some v ∧ Entry (hash2At src) o pos i v
  three : ∀ i < kHash3Size, ∃ v, hash[kFix3HashSize + i]? = some v ∧ Entry (hash3At src) o pos i v

/-- The entries of the big table lie before `bound`. -/
def BigTable (c : FinderConfig) (bound : ℕ) (hash : Array ℕ) : Prop :=
  ∀ i ≤ c.hashMask, ∃ v, hash[c.fixedHashSize + i]? = some v ∧ v < bound

/-- The place in `son` of the position `d` before the one at `cyc`. -/
def sonIndex (c : FinderConfig) (cyc d : ℕ) : ℕ :=
  c.sonBase + if cyc < d then cyc + c.cyclicBufferSize - d else cyc - d

/-- A link leads to an earlier position than its own. -/
structure Links (c : FinderConfig) (pos cyc : ℕ) (hash : Array ℕ) : Prop where
  size : c.sonBase + c.cyclicBufferSize ≤ hash.size
  back : ∀ d, 1 ≤ d → d < pos → d < c.cyclicBufferSize →
    ∃ v, hash[sonIndex c cyc d]? = some v ∧ v < pos - d

/-- The heads that are taken, each of a position before its own. -/
structure Queue (m : MatchFinder) (pos n q : ℕ) : Prop where
  headsEnd : m.headsEnd = m.headsAt + q
  bound : m.headsEnd ≤ m.heads.size
  pos_size : 0 < m.heads.size
  within : q ≤ n
  off : m.hcHeads = false → q = 0
  before : ∀ j < q, ∃ v, m.heads[m.headsAt + j]? = some v ∧ v < pos + j

/-- All tables, before the position `pos` is entered. -/
structure Tabled (m : MatchFinder) (src : List UInt8) (o pos cyc n q : ℕ) : Prop where
  low : LowTables src o pos m.hash
  big : BigTable m.toFinderConfig (pos + q) m.hash
  links : Links m.toFinderConfig pos cyc m.hash
  queue : Queue m pos n q

/-- The finder between two calls. -/
structure Stands (m : MatchFinder) (src : List UInt8) (P A : ℕ) : Prop where
  config : m.toFinderConfig.Ok
  windowed : Windowed m src P A
  limited : ∃ n, Limited m A n ∧ (m.numHashBytes ≤ m.lenLimit →
    0 < m.pos ∧ ∃ o q, P + 1 = m.pos + o ∧ Tabled m src o m.pos m.cyclicBufferPos n q)

end LzmaTurbo.Enc
