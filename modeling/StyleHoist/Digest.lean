/-! The SHA-1 digest of a byte sequence, as five words and as lower-case hexadecimal. -/
namespace StyleHoist.Digest

/-- The five chaining words. -/
structure Chain where
  a : UInt32
  b : UInt32
  c : UInt32
  d : UInt32
  e : UInt32
deriving DecidableEq, Repr

def initial : Chain := ⟨0x67452301,0xEFCDAB89,0x98BADCFE,0x10325476,0xC3D2E1F0⟩

def rotate (word : UInt32) (n : UInt32) : UInt32 := (word <<< n) ||| (word >>> (32 - n))

def bigEndian (n width : Nat) : List UInt8 :=
  (List.range width).reverse.map fun i => UInt8.ofNat (n >>> (8 * i))

/-- The message, a one bit, zeros up to 56 modulo 64 bytes, and its length in bits. -/
def pad (message : List UInt8) : List UInt8 :=
  message ++ 0x80 :: List.replicate ((119 - message.length % 64) % 64) 0 ++
    bigEndian (8 * message.length) 8

def toWords : List UInt8 → List UInt32
  | a :: b :: c :: d :: rest =>
    (a.toUInt32 <<< 24 ||| b.toUInt32 <<< 16 ||| c.toUInt32 <<< 8 ||| d.toUInt32) :: toWords rest
  | _ => []

/-- Eighty schedule words, built latest first from the sixteen words of a block. -/
def schedule (block : List UInt32) : List UInt32 :=
  ((List.range 64).foldl (fun recent _ =>
    rotate (recent.getD 2 0 ^^^ recent.getD 7 0 ^^^ recent.getD 13 0 ^^^ recent.getD 15 0) 1 :: recent)
    block.reverse).reverse

def mix (round : Nat) (b c d : UInt32) : UInt32 :=
  if round < 20 then ((b &&& c) ||| (~~~b &&& d)) + 0x5A827999
  else if round < 40 then (b ^^^ c ^^^ d) + 0x6ED9EBA1
  else if round < 60 then ((b &&& c) ||| (b &&& d) ||| (c &&& d)) + 0x8F1BBCDC
  else (b ^^^ c ^^^ d) + 0xCA62C1D6

def step (chain : Chain) (word : UInt32) (round : Nat) : Chain :=
  ⟨rotate chain.a 5 + mix round chain.b chain.c chain.d + chain.e + word,
    chain.a,rotate chain.b 30,chain.c,chain.d⟩

def compress (chain : Chain) (block : List UInt32) : Chain :=
  let last := (schedule block).zipIdx.foldl (fun at_ entry => step at_ entry.1 entry.2) chain
  ⟨chain.a + last.a,chain.b + last.b,chain.c + last.c,chain.d + last.d,chain.e + last.e⟩

def absorb (chain : Chain) (words : List UInt32) : Chain :=
  if (words.take 16).length < 16 then chain
  else absorb (compress chain (words.take 16)) (words.drop 16)
termination_by words.length
decreasing_by simp only [List.length_take] at *; simp only [List.length_drop]; omega

def sha1 (message : List UInt8) : Chain := absorb initial (toWords (pad message))

def hexDigits : List Char := "0123456789abcdef".toList

/-- Eight digits, the most significant first. -/
def wordHex (word : UInt32) : List Char :=
  (List.range 8).reverse.map fun i => hexDigits.getD ((word.toNat >>> (4 * i)) % 16) '0'

/-- The digest in forty digits. -/
def hex (message : List UInt8) : List Char :=
  let chain := sha1 message
  [chain.a,chain.b,chain.c,chain.d,chain.e].flatMap wordHex

theorem length_hex (message : List UInt8) : (hex message).length = 40 := by
  simp [hex,wordHex]

theorem mem_hexDigits_of_mem_hex {message : List UInt8} {c : Char} (member : c ∈ hex message) :
    c ∈ hexDigits := by
  simp only [hex,List.mem_flatMap,wordHex,List.mem_map] at member
  obtain ⟨word,-,i,-,rfl⟩ := member
  have bound : (word.toNat >>> (4 * i)) % 16 < hexDigits.length := Nat.mod_lt _ (by decide)
  rw [List.getD_eq_getElem?_getD,List.getElem?_eq_getElem bound]
  exact List.getElem_mem bound

end StyleHoist.Digest
