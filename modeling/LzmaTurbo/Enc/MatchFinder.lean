import LzmaTurbo.Lib.CyclicCode
import LzmaTurbo.Lib.FirstDiff
import LzmaTurbo.Machine

/-!
# The hash-chain match finder

A window slides over the stream. The low tables remember where two and three bytes were seen
last, the big one where four or five were, and `son` links each position to the one before it
with the same hash. All four lie in one allocation. Positions are `u32` and start over, the
tables with them, when they reach the end of their range. The stream a call is given is kept
with the finder here.
-/
namespace LzmaTurbo.Enc
open Machine FirstDiff

abbrev kHash2Size : ℕ := 1 <<< 10
abbrev kHash3Size : ℕ := 1 <<< 16
abbrev kFix3HashSize : ℕ := kHash2Size
abbrev kFix4HashSize : ℕ := kHash2Size + kHash3Size
abbrev kFix5HashSize : ℕ := kFix4HashSize
abbrev kLzHashCrcShift1 : ℕ := 5
abbrev kLzHashCrcShift2 : ℕ := 10
abbrev kBlockMoveAlign : ℕ := 1 <<< 7
abbrev kBlockSizeAlign : ℕ := 1 <<< 16
abbrev kBlockSizeReserveMin : ℕ := 1 <<< 24
abbrev kEmptyHashValue : ℕ := 0
abbrev kMaxValForNormalize : ℕ := 0
abbrev numRefsAlignMask : ℕ := 0xF
abbrev hcHeads : ℕ := 1 <<< 12

inductive MatchFinderKind where
  | hc4
  | hc5
  | bt2
  | bt3
  | bt4
  | bt5
deriving DecidableEq, Repr

def MatchFinderKind.btMode : MatchFinderKind → Bool
  | .hc4 | .hc5 => false
  | _ => true

def MatchFinderKind.numHashBytes : MatchFinderKind → ℕ
  | .bt2 => 2
  | .bt3 => 3
  | .hc4 | .bt4 => 4
  | .hc5 | .bt5 => 5

inductive FindError where
  | param
  | stream
  | internalFailure
deriving DecidableEq, Repr

/-- `sizes` says how many bytes more than one a call gives at most, `fails` which calls fail. -/
structure SeqInStream where
  data : List UInt8
  calls : ℕ
  sizes : ℕ → ℕ
  fails : ℕ → Bool

def SeqInStream.read (s : SeqInStream) (size : ℕ) :
    Except FindError (List UInt8) × SeqInStream :=
  if s.fails s.calls then (.error .stream, { s with calls := s.calls + 1 })
  else
    let n := min size (s.sizes s.calls + 1)
    (.ok (s.data.take n), { s with data := s.data.drop n, calls := s.calls + 1 })

/-! ## Matching bytes -/

def slice (buf : List UInt8) (i j : ℕ) : Except Fault (List UInt8) :=
  if i ≤ j ∧ j ≤ buf.length then .ok ((buf.drop i).take (j - i)) else .error .index

/-- Eight bytes at a time, the rest one by one. -/
def run8 (back fore : List UInt8) : ℕ → ℕ → ℕ
  | 0, off => off
  | fuel + 1, off =>
      if off + 8 ≤ fore.length then
        let x := leWord ((back.drop off).take 8) ^^^ leWord ((fore.drop off).take 8)
        if x ≠ 0 then off + (trailingZeros 64 x >>> 3) else run8 back fore fuel (off + 8)
      else stop (fun i => back[i]? == fore[i]?) (fore.length - off) off

def matchRun (buf : List UInt8) (diff start limit : ℕ) : Except Fault ℕ :=
  if limit ≤ start then .ok start
  else do
    let i ← sub start diff
    let j ← sub limit diff
    let back ← slice buf i j
    let fore ← slice buf start limit
    .ok (start + run8 back fore (fore.length + 1) 0)

/-! ## The hash functions -/

def crcTable (b : UInt8) : ℕ :=
  (CyclicCode.check 0xEDB88320#32 [b ^^^ 0xFF]).toNat ^^^ 0xFF000000

def hash2Of (b0 b1 : UInt8) : ℕ := (crcTable b0 ^^^ b1.toNat) &&& (kHash2Size - 1)

def hash3Of (b0 b1 b2 : UInt8) : ℕ :=
  (crcTable b0 ^^^ b1.toNat ^^^ (b2.toNat <<< 8)) &&& (kHash3Size - 1)

def hash4Of (mask : ℕ) (b0 b1 b2 b3 : UInt8) : ℕ :=
  (crcTable b0 ^^^ b1.toNat ^^^ (b2.toNat <<< 8) ^^^ u32 (crcTable b3 <<< kLzHashCrcShift1)) &&&
    mask

def hash5Of (mask : ℕ) (b0 b1 b2 b3 b4 : UInt8) : ℕ :=
  (crcTable b0 ^^^ b1.toNat ^^^ (b2.toNat <<< 8) ^^^ u32 (crcTable b3 <<< kLzHashCrcShift1) ^^^
    u32 (crcTable b4 <<< kLzHashCrcShift2)) &&& mask

/-- The three hashes of the bytes at the start of a list, five of them or four. -/
def hashCalc (five : Bool) (mask : ℕ) : List UInt8 → Except Fault (ℕ × ℕ × ℕ)
  | b0 :: b1 :: b2 :: b3 :: bs =>
      if five then
        match bs with
        | [] => .error .index
        | b4 :: _ => .ok (hash2Of b0 b1, hash3Of b0 b1 b2, hash5Of mask b0 b1 b2 b3 b4)
      else .ok (hash2Of b0 b1, hash3Of b0 b1 b2, hash4Of mask b0 b1 b2 b3)
  | _ => .error .index

/-! ## The finder -/

/-- The settings and what `create` makes of them. -/
structure FinderConfig where
  kind : MatchFinderKind
  numHashBytes : ℕ
  numHashBytesMin : ℕ
  numHashOutBits : ℕ
  expectedDataSize : ℕ
  historySize : ℕ
  cyclicBufferSize : ℕ
  matchMaxLen : ℕ
  cutValue : ℕ
  hashMask : ℕ
  fixedHashSize : ℕ
  sonBase : ℕ
  blockSize : ℕ
  keepSizeBefore : ℕ
  keepSizeAfter : ℕ
  directInput : Bool
  hcHeads : Bool

/-- What `create` has to allocate. -/
structure Plan where
  blockSize : ℕ
  hashSizeSum : ℕ
  numRefs : ℕ

structure MatchFinder extends FinderConfig where
  stream : SeqInStream
  buffer : ℕ
  pos : ℕ
  posLimit : ℕ
  streamPos : ℕ
  lenLimit : ℕ
  cyclicBufferPos : ℕ
  streamEndWasReached : Bool
  result : Except FindError Unit
  bufBase : List UInt8
  hash : Array ℕ
  numRefs : ℕ
  heads : Array ℕ
  headsAt : ℕ
  headsEnd : ℕ

/-! ## Sizes -/

def saturatingAdd64 (a b : ℕ) : ℕ := min (2 ^ 64 - 1) (a + b)

namespace FinderConfig

def getBlockSize (historySize : ℕ) (c : FinderConfig) : Except Fault ℕ := do
  let blockSize := wrappingAdd32 c.keepSizeBefore c.keepSizeAfter
  if c.keepSizeBefore < historySize ∨ blockSize < c.keepSizeBefore then .ok 0
  else do
    let blockSizeMax := wrappingSub32 0 kBlockSizeAlign
    let rem ← sub blockSizeMax blockSize
    let reserve := (blockSize >>> (if blockSize < 1 <<< 30 then 1 else 2)) + (1 <<< 12) +
      kBlockMoveAlign + kBlockSizeAlign
    if blockSizeMax ≤ blockSize ∨ rem < kBlockSizeReserveMin then .ok 0
    else if rem ≤ reserve then .ok blockSizeMax
    else .ok (blockSize + reserve - (blockSize + reserve) % kBlockSizeAlign)

/-- All bits below the highest one, down to the sixteenth from it. -/
def spread (hs : ℕ) : ℕ :=
  let hs := hs - 1
  let hs := hs ||| hs >>> 1
  let hs := hs ||| hs >>> 2
  let hs := hs ||| hs >>> 4
  hs ||| hs >>> 8

def getHashMask2 (hs : ℕ) (c : FinderConfig) : ℕ :=
  if c.numHashBytes = 2 then (1 <<< 16) - 1
  else
    let hs := spread hs
    let hs := if 1 <<< 24 ≤ hs ∧ c.numHashBytes = 3 then (1 <<< 24) - 1 else hs
    let hs := hs ||| ((1 <<< 16) - 1)
    if 5 ≤ c.numHashBytes then hs ||| ((256 <<< kLzHashCrcShift2) - 1) else hs

def getHashMask (hs : ℕ) (c : FinderConfig) : ℕ :=
  if c.numHashBytes = 2 then (1 <<< 16) - 1
  else
    let hs := spread hs >>> 1
    let hs :=
      if 1 <<< 24 ≤ hs then if c.numHashBytes = 3 then (1 <<< 24) - 1 else hs >>> 1 else hs
    let hs := hs ||| ((1 <<< 16) - 1)
    if 5 ≤ c.numHashBytes then hs ||| ((256 <<< kLzHashCrcShift2) - 1) else hs

/-- The mask for the dictionary, and the one for the data that is expected. -/
def hashMasks (historySize : ℕ) (c : FinderConfig) : ℕ × ℕ :=
  if c.numHashOutBits ≠ 0 then
    let nbMax := if c.numHashBytes = 2 then 16 else if c.numHashBytes = 3 then 24 else 32
    let numBits := min c.numHashOutBits nbMax
    let h := (if 32 ≤ numBits then 2 ^ 32 - 1 else (1 <<< numBits) - 1) ||| ((1 <<< 16) - 1)
    let h := if 5 ≤ c.numHashBytes then h ||| ((256 <<< kLzHashCrcShift2) - 1) else h
    let hs := min h (c.getHashMask2 historySize)
    (hs, if c.expectedDataSize < historySize then
      min hs (c.getHashMask2 (u32 c.expectedDataSize)) else hs)
  else
    let hs := c.getHashMask historySize
    (hs, if c.expectedDataSize < historySize then
      min hs (c.getHashMask (u32 c.expectedDataSize)) else hs)

/-- A stream of at most `dataLimit` bytes fits whole in a shorter window. -/
def plan (historySize keepAddBufferBefore matchMaxLen keepAddBufferAfter dataLimit : ℕ)
    (c : FinderConfig) : Except Fault (Except FindError (FinderConfig × Plan)) := do
  if 2 ^ 32 ≤ historySize + keepAddBufferBefore + 1 then .ok (.error .param)
  else
    let keepSizeAfter := max (u32 (keepAddBufferAfter + matchMaxLen)) c.numHashBytes
    let c := { c with keepSizeBefore := historySize + keepAddBufferBefore + 1, keepSizeAfter }
    let blockSize ← c.getBlockSize historySize
    if blockSize = 0 then .ok (.error .param)
    else
      let whole := saturatingAdd64 (saturatingAdd64 dataLimit keepSizeAfter) kBlockSizeAlign
      let blockSize := if whole < blockSize then whole - whole % kBlockSizeAlign else blockSize
      let (hs, hashMask) := c.hashMasks historySize
      let fixedHashSize :=
        (if 2 < c.numHashBytes ∧ c.numHashBytesMin ≤ 2 then kHash2Size else 0) +
          if 3 < c.numHashBytes ∧ c.numHashBytesMin ≤ 3 then kHash3Size else 0
      let hashSizeSum := hs + 1 + fixedHashSize
      let numSons := if c.kind.btMode then (historySize + 1) <<< 1 else historySize + 1
      let size := hashSizeSum + numSons + numRefsAlignMask
      .ok (.ok ({ c with
        hashMask
        fixedHashSize
        matchMaxLen
        historySize
        cyclicBufferSize := historySize + 1
      }, ⟨blockSize, hashSizeSum, size - size % (numRefsAlignMask + 1)⟩))

end FinderConfig

def cyclicBack (cyclicBufferPos delta cyclicBufferSize : ℕ) : Except Fault ℕ :=
  if cyclicBufferPos < delta then sub (cyclicBufferPos + cyclicBufferSize) delta
  else .ok (cyclicBufferPos - delta)

/-- The words of `from .. from + n` less `subValue`, or zero. -/
def normalize3 (subValue start n : ℕ) (items : Array ℕ) : Except Fault (Array ℕ) :=
  if start + n ≤ items.size then
    .ok (items.mapIdx fun i v => if start ≤ i ∧ i < start + n then v - subValue else v)
  else .error .index

namespace MatchFinder

def new : MatchFinder where
  kind := .bt4
  numHashBytes := 4
  numHashBytesMin := 2
  numHashOutBits := 0
  expectedDataSize := 2 ^ 64 - 1
  historySize := 0
  cyclicBufferSize := 0
  matchMaxLen := 0
  cutValue := 32
  hashMask := 0
  fixedHashSize := 0
  sonBase := 0
  blockSize := 0
  keepSizeBefore := 0
  keepSizeAfter := 0
  directInput := false
  hcHeads := true
  stream := ⟨[], 0, fun _ => 0, fun _ => false⟩
  buffer := 0
  pos := 0
  posLimit := 0
  streamPos := 0
  lenLimit := 0
  cyclicBufferPos := 0
  streamEndWasReached := false
  result := .ok ()
  bufBase := []
  hash := #[]
  numRefs := 0
  heads := #[]
  headsAt := 0
  headsEnd := 0

/-- Nothing that is large enough is allocated again, nor cleared. -/
def create (historySize keepAddBufferBefore matchMaxLen keepAddBufferAfter dataLimit : ℕ)
    (m : MatchFinder) : Except Fault (Except FindError MatchFinder) := do
  match ← m.plan historySize keepAddBufferBefore matchMaxLen keepAddBufferAfter dataLimit with
  | .error e => .ok (.error e)
  | .ok (c, plan) =>
      let renew := decide (m.directInput = false ∧ m.bufBase.length < plan.blockSize)
      let keep := decide (m.hash.size ≠ 0 ∧ plan.numRefs ≤ m.numRefs)
      .ok (.ok { m with
        toFinderConfig := { c with blockSize := plan.blockSize, sonBase := plan.hashSizeSum }
        bufBase := if renew then List.replicate plan.blockSize 0 else m.bufBase
        headsAt := 0
        headsEnd := 0
        heads :=
          if c.kind.btMode then #[]
          else if m.heads.size = 0 then Array.replicate hcHeads 0 else m.heads
        hash := if keep then m.hash else Array.replicate plan.numRefs 0
        numRefs := if keep then m.numRefs else plan.numRefs })

def getNumAvailableBytes (m : MatchFinder) : ℕ := wrappingSub32 m.streamPos m.pos

/-- Neither the end of the stream nor an error. -/
def Flowing (m : MatchFinder) : Prop := m.streamEndWasReached = false ∧ m.result = .ok ()

instance (m : MatchFinder) : Decidable m.Flowing :=
  decidable_of_iff (m.streamEndWasReached = false ∧ (match m.result with
    | .ok _ => true
    | .error _ => false) = true) (by
      unfold Flowing
      cases m.result <;> simp)

def readLoop : ℕ → MatchFinder → Except Fault MatchFinder
  | 0, _ => .error .fuel
  | fuel + 1, m => do
      let dest := m.buffer + m.getNumAvailableBytes
      let size ← sub m.blockSize dest
      if size = 0 then .ok m
      else if m.bufBase.length < dest + size then .error .index
      else
        match m.stream.read size with
        | (.error e, stream) => .ok { m with stream, result := .error e }
        | (.ok [], stream) => .ok { m with stream, streamEndWasReached := true }
        | (.ok bytes, stream) =>
            let m := { m with
              stream
              bufBase := m.bufBase.take dest ++ bytes ++ m.bufBase.drop (dest + bytes.length)
              streamPos := wrappingAdd32 m.streamPos bytes.length }
            if m.keepSizeAfter < m.getNumAvailableBytes then .ok m else readLoop fuel m

/-- Every turn of the loop takes a byte of the stream. -/
def readBlock (m : MatchFinder) : Except Fault MatchFinder :=
  if m.Flowing then readLoop (m.stream.data.length + 1) m else .ok m

def moveBlock (m : MatchFinder) : Except Fault MatchFinder :=
  if m.buffer < m.keepSizeBefore then .ok { m with result := .error .internalFailure }
  else
    let offset := m.buffer - m.keepSizeBefore
    let keepBefore := (offset &&& (kBlockMoveAlign - 1)) + m.keepSizeBefore
    let start := offset - (offset &&& (kBlockMoveAlign - 1))
    let len := keepBefore + m.getNumAvailableBytes
    if m.bufBase.length < start + len then .error .index
    else .ok { m with
      buffer := keepBefore
      bufBase := (m.bufBase.drop start).take len ++ m.bufBase.drop len }

def needMove (m : MatchFinder) : Except Fault Bool := do
  if m.Flowing then
    let free ← sub m.blockSize m.buffer
    .ok (decide (free ≤ m.keepSizeAfter))
  else .ok false

/-- The positions before they start over. -/
def positionsLeft (pos : ℕ) : ℕ :=
  let n := wrappingSub32 kMaxValForNormalize pos
  if n = 0 then 2 ^ 32 - 1 else n

/-- How far ahead the length limit holds, of `k` bytes, and the limit. -/
def lenLimits (keepSizeAfter matchMaxLen k : ℕ) : ℕ × ℕ :=
  if keepSizeAfter < k then (k - keepSizeAfter, matchMaxLen)
  else if matchMaxLen ≤ k then (k - matchMaxLen + 1, matchMaxLen)
  else (if k ≠ 0 then 1 else k, k)

def setLimits (m : MatchFinder) : Except Fault MatchFinder := do
  let k ← sub m.cyclicBufferSize m.cyclicBufferPos
  let n := min k (positionsLeft m.pos)
  let (k, mm) := lenLimits m.keepSizeAfter m.matchMaxLen m.getNumAvailableBytes
  .ok { m with lenLimit := mm, posLimit := wrappingAdd32 m.pos (min k n) }

def initHash (m : MatchFinder) : Except Fault MatchFinder :=
  let n := m.fixedHashSize + (m.hashMask + 1)
  if m.hash.size < n then .error .index
  else .ok { m with hash := m.hash.mapIdx fun i v => if i < n then kEmptyHashValue else v }

def init4 (m : MatchFinder) : MatchFinder :=
  { m with
    buffer := 0
    pos := 1
    streamPos := 1
    result := .ok ()
    streamEndWasReached := false }

/-- With direct input the window is the input. -/
def firstBlock (m : MatchFinder) : Except Fault MatchFinder :=
  if m.directInput then
    if m.bufBase.length ≤ 1 <<< 30 then
      .ok { m with
        streamPos := m.streamPos + m.bufBase.length
        streamEndWasReached := true }
    else .error .index
  else m.readBlock

def init (m : MatchFinder) : Except Fault MatchFinder := do
  let m := { m with headsAt := 0, headsEnd := 0 }
  let m ← m.initHash
  let m ← m.init4.firstBlock
  let m := { m with cyclicBufferPos := m.pos }
  m.setLimits

def numSonRefs (m : MatchFinder) : ℕ :=
  if m.kind.btMode then m.cyclicBufferSize <<< 1 else m.cyclicBufferSize

def normalize (m : MatchFinder) : Except Fault MatchFinder := do
  let subValue := wrappingSub32 (wrappingSub32 m.pos m.historySize) 1
  let hash ← normalize3 subValue 0 (m.hashMask + 1 + m.fixedHashSize) m.hash
  let hash ← normalize3 subValue m.sonBase m.numSonRefs hash
  .ok { m with
    pos := wrappingSub32 m.pos subValue
    streamPos := wrappingSub32 m.streamPos subValue
    hash }

/-- What `checkLimits` reads, before the window has less than it must hold. -/
def readAhead (m : MatchFinder) : Except Fault MatchFinder :=
  if m.keepSizeAfter = m.getNumAvailableBytes then do
    let move ← m.needMove
    let m ← if move then m.moveBlock else .ok m
    m.readBlock
  else .ok m

/-- Without a hash to come the tables are left. -/
def restart (m : MatchFinder) : Except Fault MatchFinder :=
  if m.pos = kMaxValForNormalize ∧ m.numHashBytes ≤ m.getNumAvailableBytes then m.normalize
  else .ok m

def checkLimits (m : MatchFinder) : Except Fault MatchFinder := do
  let m ← m.readAhead
  let m ← m.restart
  let m := if m.cyclicBufferPos = m.cyclicBufferSize then { m with cyclicBufferPos := 0 } else m
  m.setLimits

def movePos (m : MatchFinder) : Except Fault MatchFinder :=
  let m := { m with
    cyclicBufferPos := m.cyclicBufferPos + 1
    buffer := m.buffer + 1
    pos := wrappingAdd32 m.pos 1 }
  if m.pos = m.posLimit then m.checkLimits else .ok m

/-! ## Heads -/

/-- The chain heads of the next positions, each position entered in the big table. -/
def headsLoop (five : Bool) (mask fix : ℕ) :
    List UInt8 → ℕ → ℕ → ℕ → Array ℕ → Array ℕ → Except Fault (Array ℕ × Array ℕ)
  | _, 0, _, _, hash, heads => .ok (hash, heads)
  | win, n + 1, i, pos, hash, heads => do
      let (_, _, hv) ← hashCalc five mask win
      let head ← get hash (fix + hv)
      let heads ← put heads i head
      let hash ← put hash (fix + hv) pos
      headsLoop five mask fix win.tail n (i + 1) (wrappingAdd32 pos 1) hash heads

def fillHeads (pos cur fix : ℕ) (m : MatchFinder) : Except Fault MatchFinder := do
  let n := min (wrappingSub32 m.posLimit pos) m.heads.size
  let five := decide (m.kind = .hc5)
  let win ← slice m.bufBase cur (cur + n + 3 + five.toNat)
  let (hash, heads) ← headsLoop five m.hashMask fix win n 0 pos m.hash m.heads
  .ok { m with hash, heads, headsAt := 0, headsEnd := n }

/-- The chain head of `pos`, and `pos` in its place. -/
def takeHead (pos cur fix hv : ℕ) (prefetch : Bool) (m : MatchFinder) :
    Except Fault (ℕ × MatchFinder) :=
  if m.hcHeads = false ∨ prefetch = false ∧ m.headsAt = m.headsEnd then do
    let head ← get m.hash (fix + hv)
    let hash ← put m.hash (fix + hv) pos
    .ok (head, { m with hash })
  else do
    let m ← if m.headsAt = m.headsEnd then m.fillHeads pos cur fix else .ok m
    let head ← get m.heads m.headsAt
    .ok (head, { m with headsAt := m.headsAt + 1 })

/-! ## The chain -/

inductive Walk where
  | done (found : List (ℕ × ℕ))
  | more (curMatch maxLen : ℕ) (found : List (ℕ × ℕ))

/-- One link: the pair is found when it is longer than those before. -/
def hcTurn (m : MatchFinder) (cur lim curMatch maxLen : ℕ) (found : List (ℕ × ℕ)) :
    Except Fault Walk :=
  if curMatch = 0 then .ok (.done found)
  else do
    let delta ← sub m.pos curMatch
    if m.cyclicBufferSize ≤ delta then .ok (.done found)
    else do
      let i ← cyclicBack m.cyclicBufferPos delta m.cyclicBufferSize
      let curMatch ← get m.hash (m.sonBase + i)
      let fore ← byteAt m.bufBase (cur + maxLen)
      let j ← sub (cur + maxLen) delta
      let back ← byteAt m.bufBase j
      if fore = back then do
        let c ← matchRun m.bufBase delta cur lim
        let dist ← sub delta 1
        if c = lim then .ok (.done (found ++ [(lim - cur, dist)]))
        else
          let len := c - cur
          if maxLen < len then .ok (.more curMatch len (found ++ [(len, dist)]))
          else .ok (.more curMatch maxLen found)
      else .ok (.more curMatch maxLen found)

def hcWalk (m : MatchFinder) (cur lim : ℕ) :
    ℕ → ℕ → ℕ → List (ℕ × ℕ) → Except Fault (List (ℕ × ℕ))
  | 0, curMatch, maxLen, found => do
      match ← m.hcTurn cur lim curMatch maxLen found with
      | .done found => .ok found
      | .more _ _ _ => .error .underflow
  | cut + 1, curMatch, maxLen, found => do
      match ← m.hcTurn cur lim curMatch maxLen found with
      | .done found => .ok found
      | .more curMatch maxLen found =>
          if cut = 0 then .ok found else hcWalk m cur lim cut curMatch maxLen found

def setSon (i v : ℕ) (m : MatchFinder) : Except Fault MatchFinder := do
  let hash ← put m.hash (m.sonBase + i) v
  .ok { m with hash }

def hcGetMatchesSpec (lenLimit curMatch cur maxLen : ℕ) (m : MatchFinder) :
    Except Fault (List (ℕ × ℕ) × MatchFinder) := do
  let m ← m.setSon m.cyclicBufferPos curMatch
  let found ← m.hcWalk cur (cur + lenLimit) m.cutValue curMatch maxLen []
  .ok (found, m)

def setMmm (m : MatchFinder) : ℕ :=
  if m.pos < m.cyclicBufferSize then m.pos else m.cyclicBufferSize

def updateMaxLen (cur d2 maxLen lenLimit : ℕ) (m : MatchFinder) : Except Fault ℕ := do
  let c ← matchRun m.bufBase d2 (cur + maxLen) (cur + lenLimit)
  sub c cur

/-- The low hashes' distances, and `pos` in their places. -/
def enterLow (h2 h3 : ℕ) (m : MatchFinder) : Except Fault (ℕ × ℕ × MatchFinder) := do
  let v2 ← get m.hash h2
  let d2 ← sub m.pos v2
  let v3 ← get m.hash (kFix3HashSize + h3)
  let d3 ← sub m.pos v3
  let hash ← put m.hash h2 m.pos
  let hash ← put hash (kFix3HashSize + h3) m.pos
  .ok (d2, d3, { m with hash })

/-- Whether the first byte at that distance is the current one. -/
def firstAgrees (cur d mmm : ℕ) (m : MatchFinder) : Except Fault Bool :=
  if d < mmm then do
    let i ← sub cur d
    let back ← byteAt m.bufBase i
    let bufCur ← byteAt m.bufBase cur
    .ok (decide (back = bufCur))
  else .ok false

/-- The pair that two bytes give, and the distance that three or more may agree at. -/
def lowPairs (cur d2 d3 : ℕ) (m : MatchFinder) :
    Except Fault (List (ℕ × ℕ) × Option ℕ) := do
  let mmm := m.setMmm
  if ← m.firstAgrees cur d2 mmm then do
    let i ← sub cur d2
    let back ← byteAt m.bufBase (i + 2)
    let fore ← byteAt m.bufBase (cur + 2)
    if back = fore then .ok ([], some d2)
    else do
      let dist ← sub d2 1
      if ← m.firstAgrees cur d3 mmm then .ok ([(2, dist)], some d3)
      else .ok ([(2, dist)], none)
  else if ← m.firstAgrees cur d3 mmm then .ok ([], some d3)
  else .ok ([], none)

/-- A match of full length needs no walk. -/
def hcFull (pos cur fix hv : ℕ) (found : List (ℕ × ℕ)) (m : MatchFinder) :
    Except Fault (List (ℕ × ℕ) × MatchFinder) := do
  let (curMatch, m) ← m.takeHead pos cur fix hv false
  let m ← m.setSon m.cyclicBufferPos curMatch
  let m ← m.movePos
  .ok (found, m)

def hcRest (pos cur fix hv lenLimit maxLen : ℕ) (found : List (ℕ × ℕ)) (m : MatchFinder) :
    Except Fault (List (ℕ × ℕ) × MatchFinder) := do
  let (curMatch, m) ← m.takeHead pos cur fix hv true
  let (more, m) ← m.hcGetMatchesSpec lenLimit curMatch cur maxLen
  let m ← m.movePos
  .ok (found ++ more, m)

def hc4GetMatches (m : MatchFinder) : Except Fault (List (ℕ × ℕ) × MatchFinder) := do
  let lenLimit := m.lenLimit
  if lenLimit < 4 then do
    let m ← m.movePos
    .ok ([], m)
  else do
    let cur := m.buffer
    let win ← slice m.bufBase cur (cur + 4)
    let (h2, h3, hv) ← hashCalc false m.hashMask win
    let pos := m.pos
    let (d2, d3, m) ← m.enterLow h2 h3
    let (found, back) ← m.lowPairs cur d2 d3
    match back with
    | none => m.hcRest pos cur kFix4HashSize hv lenLimit 3 found
    | some d => do
        let dist ← sub d 1
        let maxLen ← m.updateMaxLen cur d 3 lenLimit
        let found := found ++ [(maxLen, dist)]
        if maxLen = lenLimit then m.hcFull pos cur kFix4HashSize hv found
        else m.hcRest pos cur kFix4HashSize hv lenLimit maxLen found

def hc5GetMatches (m : MatchFinder) : Except Fault (List (ℕ × ℕ) × MatchFinder) := do
  let lenLimit := m.lenLimit
  if lenLimit < 5 then do
    let m ← m.movePos
    .ok ([], m)
  else do
    let cur := m.buffer
    let win ← slice m.bufBase cur (cur + 5)
    let (h2, h3, hv) ← hashCalc true m.hashMask win
    let pos := m.pos
    let (d2, d3, m) ← m.enterLow h2 h3
    let (found, back) ← m.lowPairs cur d2 d3
    match back with
    | none => m.hcRest pos cur kFix5HashSize hv lenLimit 4 found
    | some d => do
        let dist ← sub d 1
        let i ← sub cur d
        let old ← byteAt m.bufBase (i + 3)
        let new ← byteAt m.bufBase (cur + 3)
        -- the fourth byte is the first one no hash has seen
        if old ≠ new then m.hcRest pos cur kFix5HashSize hv lenLimit 4 (found ++ [(3, dist)])
        else do
          let maxLen ← m.updateMaxLen cur d 4 lenLimit
          let found := found ++ [(maxLen, dist)]
          if maxLen = lenLimit then m.hcFull pos cur kFix5HashSize hv found
          else m.hcRest pos cur kFix5HashSize hv lenLimit maxLen found

/-! ## Skipping -/

/-- Positions whose heads are taken already: the low tables and the links are left. -/
def skipQueued (cyc : ℕ) :
    ℕ → ℕ → ℕ → List UInt8 → MatchFinder → Except Fault MatchFinder
  | 0, _, _, _, m => .ok m
  | n + 1, i, pos, win, m => do
      match win with
      | b0 :: b1 :: b2 :: _ => do
          let hash ← put m.hash (hash2Of b0 b1) pos
          let hash ← put hash (kFix3HashSize + hash3Of b0 b1 b2) pos
          let head ← get m.heads m.headsAt
          let hash ← put hash (m.sonBase + (cyc + i)) head
          skipQueued cyc n (i + 1) (wrappingAdd32 pos 1) win.tail
            { m with hash, headsAt := m.headsAt + 1 }
      | _ => .error .index

def skipFresh (five : Bool) (fix cyc : ℕ) :
    ℕ → ℕ → ℕ → List UInt8 → MatchFinder → Except Fault (ℕ × MatchFinder)
  | 0, _, pos, _, m => .ok (pos, m)
  | n + 1, i, pos, win, m => do
      let (h2, h3, hv) ← hashCalc five m.hashMask win
      let head ← get m.hash (fix + hv)
      let hash ← put m.hash (m.sonBase + (cyc + i)) head
      let hash ← put hash h2 pos
      let hash ← put hash (kFix3HashSize + h3) pos
      let hash ← put hash (fix + hv) pos
      skipFresh five fix cyc n (i + 1) (wrappingAdd32 pos 1) win.tail { m with hash }

/-- The positions up to the next limit. -/
def skipRun (hashBytes count : ℕ) (m : MatchFinder) : Except Fault MatchFinder := do
  let five := decide (hashBytes ≠ 4)
  let fix := if hashBytes = 4 then kFix4HashSize else kFix5HashSize
  let cyc := m.cyclicBufferPos
  let cur := m.buffer
  let win ← slice m.bufBase cur (cur + count + hashBytes - 1)
  let queued := min count (m.headsEnd - m.headsAt)
  let m := { m with cyclicBufferPos := cyc + count }
  let m ← skipQueued cyc queued 0 m.pos win m
  let (pos, m) ← skipFresh five fix cyc (count - queued) queued
    (wrappingAdd32 m.pos queued) (win.drop queued) m
  let m := { m with buffer := cur + count, pos }
  if m.pos = m.posLimit then m.checkLimits else .ok m

def hcSkip (hashBytes : ℕ) : ℕ → ℕ → MatchFinder → Except Fault MatchFinder
  | _, 0, m => .ok m
  | 0, _ + 1, _ => .error .fuel
  | fuel + 1, num + 1, m =>
      if m.lenLimit < hashBytes then do
        let m ← m.movePos
        hcSkip hashBytes fuel num m
      else do
        let rem := wrappingSub32 m.posLimit m.pos
        let num2 := if rem ≤ num + 1 then rem else num + 1
        let m ← m.skipRun hashBytes num2
        hcSkip hashBytes fuel (num + 1 - num2) m

/-- `get_matches` of the chains. -/
def hcGetMatches (m : MatchFinder) : Except Fault (List (ℕ × ℕ) × MatchFinder) :=
  if m.kind = .hc5 then m.hc5GetMatches else m.hc4GetMatches

/-- `skip` of the chains. -/
def skip (num : ℕ) (m : MatchFinder) : Except Fault MatchFinder :=
  hcSkip (if m.kind = .hc5 then 5 else 4) num num m

end MatchFinder
end LzmaTurbo.Enc
