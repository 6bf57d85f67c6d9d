import Deadwood.Bytes

/-!
SHA-256 of a byte string.
-/
namespace Deadwood.Sha256

def constants : List UInt32 := [
  0x428a2f98, 0x71374491, 0xb5c0fbcf, 0xe9b5dba5, 0x3956c25b, 0x59f111f1, 0x923f82a4, 0xab1c5ed5,
  0xd807aa98, 0x12835b01, 0x243185be, 0x550c7dc3, 0x72be5d74, 0x80deb1fe, 0x9bdc06a7, 0xc19bf174,
  0xe49b69c1, 0xefbe4786, 0x0fc19dc6, 0x240ca1cc, 0x2de92c6f, 0x4a7484aa, 0x5cb0a9dc, 0x76f988da,
  0x983e5152, 0xa831c66d, 0xb00327c8, 0xbf597fc7, 0xc6e00bf3, 0xd5a79147, 0x06ca6351, 0x14292967,
  0x27b70a85, 0x2e1b2138, 0x4d2c6dfc, 0x53380d13, 0x650a7354, 0x766a0abb, 0x81c2c92e, 0x92722c85,
  0xa2bfe8a1, 0xa81a664b, 0xc24b8b70, 0xc76c51a3, 0xd192e819, 0xd6990624, 0xf40e3585, 0x106aa070,
  0x19a4c116, 0x1e376c08, 0x2748774c, 0x34b0bcb5, 0x391c0cb3, 0x4ed8aa4a, 0x5b9cca4f, 0x682e6ff3,
  0x748f82ee, 0x78a5636f, 0x84c87814, 0x8cc70208, 0x90befffa, 0xa4506ceb, 0xbef9a3f7, 0xc67178f2]

structure State where
  a : UInt32
  b : UInt32
  c : UInt32
  d : UInt32
  e : UInt32
  f : UInt32
  g : UInt32
  h : UInt32
  deriving DecidableEq, Repr

def start : State :=
  ⟨0x6a09e667, 0xbb67ae85, 0x3c6ef372, 0xa54ff53a, 0x510e527f, 0x9b05688c, 0x1f83d9ab, 0x5be0cd19⟩

def rotate (x n : UInt32) : UInt32 := (x >>> n) ||| (x <<< (32 - n))

def word (bytes : Bytes) : UInt32 := bytes.foldl (fun w b => (w <<< 8) ||| b.toUInt32) 0

def wordBytes (w : UInt32) : Bytes :=
  [(w >>> 24).toUInt8, (w >>> 16).toUInt8, (w >>> 8).toUInt8, w.toUInt8]

def pad (bytes : Bytes) : Bytes :=
  bytes ++ 0x80 :: List.replicate ((119 - bytes.length % 64) % 64) 0 ++
    (List.range 8).reverse.map fun i => UInt8.ofNat (8 * bytes.length / Nat.pow 256 i % 256)

theorem length_pad_mod (bytes : Bytes) : (pad bytes).length % 64 = 0 := by
  simp [pad]; omega

def blocks (bytes : Bytes) : List Bytes :=
  (List.range (bytes.length / 64)).map fun i => bytes.slice (64 * i) (64 * i + 64)

def words (block : Bytes) : List UInt32 :=
  (List.range 16).map fun i => word (block.slice (4 * i) (4 * i + 4))

/-- Extends the words, latest first, by `n` more. -/
def extend : Nat → List UInt32 → List UInt32
  | 0, ws => ws
  | n + 1, ws =>
    let x := ws.getD 14 0
    let y := ws.getD 1 0
    let s := rotate x 7 ^^^ rotate x 18 ^^^ (x >>> 3)
    let t := rotate y 17 ^^^ rotate y 19 ^^^ (y >>> 10)
    extend n ((ws.getD 15 0 + s + ws.getD 6 0 + t) :: ws)

theorem length_extend (n : Nat) (ws : List UInt32) : (extend n ws).length = n + ws.length := by
  induction n generalizing ws with
  | zero => simp [extend]
  | succ n ih => simp only [extend, ih, List.length_cons]; omega

def schedule (block : Bytes) : List UInt32 := (extend 48 (words block).reverse).reverse

theorem length_schedule (block : Bytes) : (schedule block).length = 64 := by
  simp [schedule, length_extend, words]

def round (s : State) (k w : UInt32) : State :=
  let t := s.h + (rotate s.e 6 ^^^ rotate s.e 11 ^^^ rotate s.e 25) +
    ((s.e &&& s.f) ^^^ (~~~s.e &&& s.g)) + k + w
  let u := (rotate s.a 2 ^^^ rotate s.a 13 ^^^ rotate s.a 22) +
    ((s.a &&& s.b) ^^^ (s.a &&& s.c) ^^^ (s.b &&& s.c))
  ⟨t + u, s.a, s.b, s.c, s.d + t, s.e, s.f, s.g⟩

def State.add (s t : State) : State :=
  ⟨s.a + t.a, s.b + t.b, s.c + t.c, s.d + t.d, s.e + t.e, s.f + t.f, s.g + t.g, s.h + t.h⟩

def compress (s : State) (block : Bytes) : State :=
  s.add ((constants.zip (schedule block)).foldl (fun s (k, w) => round s k w) s)

def State.bytes (s : State) : Bytes :=
  [s.a, s.b, s.c, s.d, s.e, s.f, s.g, s.h].flatMap wordBytes

def hash (bytes : Bytes) : Bytes := ((blocks (pad bytes)).foldl compress start).bytes

theorem length_hash (bytes : Bytes) : (hash bytes).length = 32 := by
  simp [hash, State.bytes, wordBytes]

end Deadwood.Sha256
