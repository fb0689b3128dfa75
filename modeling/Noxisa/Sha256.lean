import Mathlib

/-!
# SHA-256

The hash function of `crypto/sha256` and the lower-case digits of
`encoding/hex`, over lists of bytes.  Proofs use nothing of the function but
`encodeToString_hex`.
-/

namespace Sha256

/-- The round constants. -/
def k : List UInt32 :=
  [0x428a2f98, 0x71374491, 0xb5c0fbcf, 0xe9b5dba5, 0x3956c25b, 0x59f111f1, 0x923f82a4, 0xab1c5ed5,
   0xd807aa98, 0x12835b01, 0x243185be, 0x550c7dc3, 0x72be5d74, 0x80deb1fe, 0x9bdc06a7, 0xc19bf174,
   0xe49b69c1, 0xefbe4786, 0x0fc19dc6, 0x240ca1cc, 0x2de92c6f, 0x4a7484aa, 0x5cb0a9dc, 0x76f988da,
   0x983e5152, 0xa831c66d, 0xb00327c8, 0xbf597fc7, 0xc6e00bf3, 0xd5a79147, 0x06ca6351, 0x14292967,
   0x27b70a85, 0x2e1b2138, 0x4d2c6dfc, 0x53380d13, 0x650a7354, 0x766a0abb, 0x81c2c92e, 0x92722c85,
   0xa2bfe8a1, 0xa81a664b, 0xc24b8b70, 0xc76c51a3, 0xd192e819, 0xd6990624, 0xf40e3585, 0x106aa070,
   0x19a4c116, 0x1e376c08, 0x2748774c, 0x34b0bcb5, 0x391c0cb3, 0x4ed8aa4a, 0x5b9cca4f, 0x682e6ff3,
   0x748f82ee, 0x78a5636f, 0x84c87814, 0x8cc70208, 0x90befffa, 0xa4506ceb, 0xbef9a3f7, 0xc67178f2]

/-- The eight words. -/
structure State where
  a : UInt32
  b : UInt32
  c : UInt32
  d : UInt32
  e : UInt32
  f : UInt32
  g : UInt32
  h : UInt32

/-- The initial hash value. -/
def initial : State :=
  ⟨0x6a09e667, 0xbb67ae85, 0x3c6ef372, 0xa54ff53a, 0x510e527f, 0x9b05688c, 0x1f83d9ab, 0x5be0cd19⟩

/-- A rotation to the right. -/
def rotr (x n : UInt32) : UInt32 := (x >>> n) ||| (x <<< (32 - n))

/-- A word of the message and its constant. -/
def round (s : State) (kw : UInt32 × UInt32) : State :=
  let t1 := s.h + (rotr s.e 6 ^^^ rotr s.e 11 ^^^ rotr s.e 25) +
    ((s.e &&& s.f) ^^^ (~~~s.e &&& s.g)) + kw.1 + kw.2
  let t2 := (rotr s.a 2 ^^^ rotr s.a 13 ^^^ rotr s.a 22) +
    ((s.a &&& s.b) ^^^ (s.a &&& s.c) ^^^ (s.b &&& s.c))
  ⟨t1 + t2, s.a, s.b, s.c, s.d + t1, s.e, s.f, s.g⟩

/-- `n` more words of the schedule, which has the latest word in front. -/
def schedule : Nat → List UInt32 → List UInt32
  | 0, ws => ws
  | n + 1, ws =>
      let s0 := rotr (ws.getD 14 0) 7 ^^^ rotr (ws.getD 14 0) 18 ^^^ (ws.getD 14 0 >>> 3)
      let s1 := rotr (ws.getD 1 0) 17 ^^^ rotr (ws.getD 1 0) 19 ^^^ (ws.getD 1 0 >>> 10)
      schedule n ((ws.getD 15 0 + s0 + ws.getD 6 0 + s1) :: ws)

/-- Big-endian words. -/
def words : List UInt8 → List UInt32
  | b₀ :: b₁ :: b₂ :: b₃ :: rest =>
      ((b₀.toUInt32 <<< 24) ||| (b₁.toUInt32 <<< 16) ||| (b₂.toUInt32 <<< 8) ||| b₃.toUInt32) ::
        words rest
  | _ => []

/-- One block of 64 bytes. -/
def block (s : State) (p : List UInt8) : State :=
  let t := (k.zip (schedule 48 (words p).reverse).reverse).foldl round s
  ⟨s.a + t.a, s.b + t.b, s.c + t.c, s.d + t.d, s.e + t.e, s.f + t.f, s.g + t.g, s.h + t.h⟩

/-- `n` blocks. -/
def blocks : Nat → State → List UInt8 → State
  | 0, s, _ => s
  | n + 1, s, p => blocks n (block s (p.take 64)) (p.drop 64)

/-- `n` big-endian bytes. -/
def bytes : Nat → Nat → List UInt8
  | 0, _ => []
  | n + 1, x => bytes n (x / 256) ++ [UInt8.ofNat x]

/-- The padding: a one, zeros, and the length in bits. -/
def pad (data : List UInt8) : List UInt8 :=
  data ++ [0x80] ++ List.replicate ((119 - data.length % 64) % 64) 0 ++ bytes 8 (data.length * 8)

/-- `sha256.Sum256` -/
def sum (data : List UInt8) : List UInt8 :=
  let p := pad data
  let s := blocks (p.length / 64) initial p
  [s.a, s.b, s.c, s.d, s.e, s.f, s.g, s.h].flatMap fun w => bytes 4 w.toNat

/-- The digits of `hex.EncodeToString`. -/
def digits : List Char := "0123456789abcdef".toList

/-- `hex.EncodeToString` -/
def encodeToString (data : List UInt8) : String :=
  String.ofList (data.flatMap fun b =>
    [digits.getD (b.toNat / 16) '0', digits.getD (b.toNat % 16) '0'])

/-- Written in these digits. -/
def IsHex (s : String) : Prop := ∀ c ∈ s.toList, c ∈ digits

/-- A digit is one of them. -/
theorem getD_digits (n : Nat) : digits.getD n '0' ∈ digits := by
  rw [List.getD_eq_getElem?_getD]
  cases h : digits[n]? with
  | none => decide
  | some c => exact List.mem_of_getElem? h

/-- An encoding is written in them. -/
theorem encodeToString_hex (data : List UInt8) : IsHex (encodeToString data) := by
  intro c hc
  rw [encodeToString, String.toList_ofList] at hc
  obtain ⟨b, -, hb⟩ := List.mem_flatMap.mp hc
  rcases List.mem_cons.mp hb with rfl | hb
  · exact getD_digits _
  · obtain rfl := List.mem_singleton.mp hb
    exact getD_digits _

/-- A number in `n` bytes. -/
private theorem bytes_length (n x : Nat) : (bytes n x).length = n := by
  induction n generalizing x with
  | zero => rfl
  | succ n ih => rw [bytes, List.length_append, ih, List.length_singleton]

/-- A hash has 32 bytes. -/
theorem sum_length (data : List UInt8) : (sum data).length = 32 := by
  simp [sum, bytes_length]

/-- An encoding has two digits a byte. -/
theorem encodeToString_length (data : List UInt8) :
    (encodeToString data).length = data.length * 2 := by
  rw [encodeToString, String.length_ofList]
  simp

example : encodeToString (sum [97, 98, 99]) =
    "ba7816bf8f01cfea414140de5dae2223b00361a396177a9cb410ff61f20015ad" := by decide +kernel

end Sha256
