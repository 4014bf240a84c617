import Lounge.Compress.Lz4Format

/-!
# The LZ4 encoder

`LZ4_compress` of `compress-lz4/lz4/lz4.c`, on a 64-bit little-endian machine: `LZ4_compress64kCtx`
for short sources and `LZ4_compressCtx` for the others. The two differ in the size of the hash
table and of its entries, and only the second looks at the distance of a match.

The labels that the code jumps to are the states of one loop. To read outside the source, or to
write outside the destination, is a trap.
-/

namespace Lz4Encoder
open FlatMemory LittleEndian StepLoop Lz4Decoder Lz4Format

def skipStrength : Nat := 6
def minLength : Nat := 13
def hash64Limit : Nat := 2 ^ 16 + 11

/-- What `LZ4_compressCtx` and `LZ4_compress64kCtx` have of their own: the logarithm of the size of
the table, the bits of an entry, how far back a match may be, and whether the first byte is entered
into the table. -/
structure Variant where
  hashLog : Nat
  entryBits : Nat
  maxDistance : Option Nat
  entersFirst : Bool

def ctx : Variant := ⟨12, 32, some 65535, true⟩
def ctx64k : Variant := ⟨13, 16, none, false⟩

/-- `HashTable`, of which no more than the entries below its size are used. -/
abbrev HashTable := Nat → Nat

def HashTable.put (table : HashTable) (h entry : Nat) : HashTable :=
  fun i => if i = h then entry else table i

section Source
variable (source : List UInt8)

/-- `A16`, `A32` and `A64` of the source. -/
def word (n p : Nat) : Option (List UInt8) :=
  if p + n ≤ source.length then some ((source.drop p).take n) else none

/-- Whether two words are the same. -/
def sameWord (n p q : Nat) : Option Bool :=
  (word source n p).bind fun a => (word source n q).map fun b => a == b

/-- `LZ4_HASH_VALUE`. -/
def hashValue (v : Variant) (p : Nat) : Option Nat :=
  (word source 4 p).map fun a => (natLE a * 2654435761 % 2 ^ 32) >>> (32 - v.hashLog)

def mflimit : Int := source.length - mfLimit
def matchlimit : Int := source.length - lastLiterals

/-- The distance of a match may be encoded, as far as the code looks. -/
def Variant.near (v : Variant) (ref ip : Nat) : Bool :=
  match v.maxDistance with
  | none => true
  | some distance => !(ref + distance < ip)

/-- The search for a match: where it looks next, the hash there, and how often it has looked. -/
structure Search where
  forwardIp : Nat
  forwardH : Nat
  findMatchAttempts : Nat
  table : HashTable

/-- A match, with the table. -/
structure Match where
  ip : Nat
  ref : Nat
  table : HashTable

/-- One look; without a match in the end, it is on to the last literals. -/
def findRound (v : Variant) (s : Search) : Option (Round Search (Option Match)) :=
  let ip := s.forwardIp
  let forwardIp := ip + s.findMatchAttempts >>> skipStrength
  if mflimit source < forwardIp then some (.stop none)
  else do
    let forwardH ← hashValue source v forwardIp
    let ref := s.table s.forwardH
    let table := s.table.put s.forwardH (ip % 2 ^ v.entryBits)
    if !v.near ref ip then
      some (.again ⟨forwardIp, forwardH, s.findMatchAttempts + 1, table⟩)
    else
      let same ← sameWord source 4 ref ip
      if same then some (.stop (some ⟨ip, ref, table⟩))
      else some (.again ⟨forwardIp, forwardH, s.findMatchAttempts + 1, table⟩)

/-- Every look is at a later place. -/
def findMatch (v : Variant) (ip forwardH : Nat) (table : HashTable) : Option (Option Match) :=
  loop (findRound source v) (source.length + 1) ⟨ip, forwardH, 2 ^ skipStrength + 3, table⟩

/-- A match goes back as long as the bytes before are the same. -/
def catchUp (anchor : Nat) : Nat → Nat → Nat × Nat
  | ip + 1, ref + 1 =>
    if anchor < ip + 1 ∧ source[ip]? = source[ref]? then catchUp anchor ip ref
    else (ip + 1, ref + 1)
  | ip, ref => (ip, ref)

/-- `__builtin_ctzll`, of a number below a power of two of this exponent. -/
def ctz : Nat → Nat → Nat
  | 0, _ => 0
  | bits + 1, val => if val % 2 = 1 then 0 else ctz bits (val / 2) + 1

/-- `LZ4_NbCommonBytes`. -/
def nbCommonBytes (val : Nat) : Nat := ctz 64 val >>> 3

/-- A last step of this many bytes, where the words are the same and end before `matchlimit`. -/
def countWord (n : Nat) (here : Nat × Nat) : Option (Nat × Nat) :=
  if (here.1 : Int) < matchlimit source - (n - 1 : Nat) then do
    let same ← sameWord source n here.2 here.1
    if same then some (here.1 + n, here.2 + n) else some here
  else some here

/-- Where a match that is verified up to `ip` ends. -/
def countMatch (ip ref : Nat) : Option Nat :=
  if (ip : Int) < matchlimit source - (stepSize - 1 : Nat) then
    match word source 8 ref, word source 8 ip with
    | some a, some b =>
      let diff := natLE a ^^^ natLE b
      if diff = 0 then countMatch (ip + stepSize) (ref + stepSize)
      else some (ip + nbCommonBytes diff)
    | _, _ => none
  else do
    let here ← countWord source 4 (ip, ref)
    let here ← countWord source 2 here
    let here ← countWord source 1 here
    some here.1
termination_by (matchlimit source - ip).toNat
decreasing_by
  have step : stepSize = 8 := rfl
  omega

end Source
section Output
variable (capacity : Nat)

def put (dest : Memory) (op : Nat) (bs : List UInt8) : Option Memory :=
  if op + bs.length ≤ capacity then some (store dest op bs) else none

/-- `for(; len > 254 ; len-=255) *op++ = 255; *op++ = (BYTE)len;`. -/
def putRun (len : Nat) (dest : Memory) (op : Nat) : Option (Memory × Nat) :=
  if 254 < len then
    match put capacity dest op [255] with
    | none => none
    | some dest => putRun (len - 255) dest (op + 1)
  else (put capacity dest op [UInt8.ofNat len]).map fun dest => (dest, op + 1)
termination_by len

/-- The same, two bytes at a time, as it is written for the length of a match. -/
def putMatchRun (len : Nat) (dest : Memory) (op : Nat) : Option (Memory × Nat) :=
  if 509 < len then
    match (put capacity dest op [255]).bind fun dest => put capacity dest (op + 1) [255] with
    | none => none
    | some dest => putMatchRun (len - 510) dest (op + 2)
  else if 254 < len then do
    let dest ← put capacity dest op [255]
    let dest ← put capacity dest (op + 1) [UInt8.ofNat (len - 255)]
    some (dest, op + 2)
  else (put capacity dest op [UInt8.ofNat len]).map fun dest => (dest, op + 1)
termination_by len

/-- A token with the number of literals, and what does not fit it. -/
def encodeRun (dest : Memory) (op length : Nat) : Option (Memory × Nat) :=
  if runMask ≤ length then do
    let dest ← put capacity dest op [UInt8.ofNat (runMask <<< mlBits)]
    putRun capacity (length - runMask) dest (op + 1)
  else do
    let dest ← put capacity dest op [UInt8.ofNat (length <<< mlBits)]
    some (dest, op + 1)

/-- The length of a match, less four, into the token and behind the offset. -/
def encodeMatch (dest : Memory) (op token len : Nat) : Option (Memory × Nat) :=
  if mlMask ≤ len then do
    let dest ← put capacity dest token [dest token + UInt8.ofNat mlMask]
    putMatchRun capacity (len - mlMask) dest op
  else do
    let dest ← put capacity dest token [dest token + UInt8.ofNat len]
    some (dest, op)

end Output

/-- The labels: `for ( ; ; )`, with the hash it begins with, `_next_match`, with the match and the
place of its token, and `_last_literals`. -/
inductive Label where
  | mainLoop (forwardH : Nat)
  | nextMatch (ref token : Nat)
  | lastLiterals

structure Coding where
  ip : Nat
  anchor : Nat
  op : Nat
  dest : Memory
  table : HashTable

section Loop
variable (v : Variant) (source : List UInt8) (capacity : Nat)

/-- To the next match, over the literals before it. They are copied eight at a time
(`LZ4_BLINDCOPY`). -/
def mainLoop (forwardH : Nat) (s : Coding) : Option (Label × Coding) := do
  match ← findMatch source v s.ip forwardH s.table with
  | none => some (.lastLiterals, s)
  | some found => do
    let (ip, ref) := catchUp source s.anchor found.ip found.ref
    let length := ip - s.anchor
    let (dest, op) ← encodeRun capacity s.dest s.op length
    let (dest, _, _) ← wildCopy (copyIn source capacity 8) (op + length : Nat) dest op s.anchor
    some (.nextMatch ref s.op, ⟨ip, s.anchor, op + length, dest, found.table⟩)

/-- A match of four bytes or more, and whether another one comes right behind it. -/
def nextMatch (ref token : Nat) (s : Coding) : Option (Label × Coding) := do
  let dest ← put capacity s.dest s.op (bytesLE 2 (((s.ip : Int) - ref) % 2 ^ 16).toNat)
  let anchor := s.ip + minMatch
  let ip ← countMatch source anchor (ref + minMatch)
  let (dest, op) ← encodeMatch capacity dest (s.op + 2) token (ip - anchor)
  if mflimit source < ip then some (.lastLiterals, ⟨ip, ip, op, dest, s.table⟩)
  else do
    let table := s.table.put (← hashValue source v (ip - 2)) ((ip - 2) % 2 ^ v.entryBits)
    let h ← hashValue source v ip
    let ref := table h
    let table := table.put h (ip % 2 ^ v.entryBits)
    let same ← if v.near ref ip then sameWord source 4 ref ip else some false
    if same then do
      let dest ← put capacity dest op [0]
      some (.nextMatch ref op, ⟨ip, anchor, op + 1, dest, table⟩)
    else do
      let forwardH ← hashValue source v (ip + 1)
      some (.mainLoop forwardH, ⟨ip + 1, ip, op, dest, table⟩)

def lastLiteralsFrom (s : Coding) : Option Answer := do
  let lastRun := source.length - s.anchor
  let (dest, op) ← encodeRun capacity s.dest s.op lastRun
  let dest ← copyIn source capacity lastRun dest op s.anchor
  some ((op + lastRun : Nat), dest)

def codeRound : Label × Coding → Option (Round (Label × Coding) Answer)
  | (.mainLoop forwardH, s) => (mainLoop v source capacity forwardH s).map .again
  | (.nextMatch ref token, s) => (nextMatch v source capacity ref token s).map .again
  | (.lastLiterals, s) => (lastLiteralsFrom source capacity s).map .stop

/-- What `LZ4_compressCtx` and `LZ4_compress64kCtx` share. -/
def compressVariant (dest : Memory) : Option Answer :=
  if source.length < minLength then lastLiteralsFrom source capacity ⟨0, 0, 0, dest, fun _ => 0⟩
  else do
    let h ← hashValue source v 0
    let table := if v.entersFirst then HashTable.put (fun _ => 0) h 0 else fun _ => 0
    let forwardH ← hashValue source v 1
    loop (codeRound v source capacity) (2 * source.length + 3)
      (.mainLoop forwardH, ⟨1, 0, 0, dest, table⟩)

end Loop

def lz4CompressCtx : List UInt8 → Nat → Memory → Option Answer := compressVariant ctx

def lz4Compress64kCtx : List UInt8 → Nat → Memory → Option Answer := compressVariant ctx64k

def lz4Compress (source : List UInt8) (capacity : Nat) (dest : Memory) : Option Answer :=
  if source.length < hash64Limit then lz4Compress64kCtx source capacity dest
  else lz4CompressCtx source capacity dest

/-- `LZ4_compressBound`; the sum is an `int`, whose overflow is a trap. -/
def lz4CompressBound (isize : Int) : Option Int :=
  let bound := isize + isize.tdiv 255 + 16
  if -2 ^ 31 ≤ bound ∧ bound < 2 ^ 31 then some bound else none

end Lz4Encoder
