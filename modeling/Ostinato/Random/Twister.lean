import Ostinato.Random.Sha512

/-!
# Ostinato.Random.Twister

A stream of pseudo-random 32-bit words from 624 words of state, the generator
known as MT19937, seeded from text.

1. The key is the big-endian number spelled by the text's bytes and the
   SHA-512 hash of those bytes, cut into 32-bit words, lowest first.
2. A fixed state is stirred with the key, word by word, and once more without.
3. Every 624 outputs the state is twisted; each output is one word of it with
   its bits tempered.
-/

namespace Ostinato

/-- The state of the generator: its words and how many have been put out. -/
structure Twister where
  words : Array UInt32
  used : Nat

namespace Twister

/-- Words of state. -/
def size : Nat := 624

/-- Distance between the words that a twist combines. -/
def middle : Nat := 397

/-! ## Seeding -/

/-- The state grown from one word. -/
def ofWord (seed : UInt32) : Array UInt32 :=
  (List.range (size - 1)).foldl (fun ws i =>
    let last := ws.getD i 0
    ws.push ((1812433253 : UInt32) * (last ^^^ (last >>> 30)) + UInt32.ofNat (i + 1))) #[seed]

/-- A place in the state and a place in the key during seeding. -/
structure Stirring where
  words : Array UInt32
  place : Nat
  key : Nat

/-- Moves to the next place; past the end, the last word is carried over to
the front and the next place is the second. -/
def Stirring.next (s : Stirring) : Stirring :=
  if s.place + 1 < size then { s with place := s.place + 1 }
  else { s with words := s.words.setIfInBounds 0 (s.words.getD (size - 1) 0), place := 1 }

/-- The word before the current one, with its high bits folded in. -/
def Stirring.previous (s : Stirring) : UInt32 :=
  let w := s.words.getD (s.place - 1) 0
  w ^^^ (w >>> 30)

/-- Mixes one word of the key into the state. -/
def Stirring.mixKey (key : Array UInt32) (s : Stirring) : Stirring :=
  let w := (s.words.getD s.place 0 ^^^ (s.previous * 1664525)) +
    key.getD s.key 0 + UInt32.ofNat s.key
  let s := { s with words := s.words.setIfInBounds s.place w }
  { s.next with key := if s.key + 1 < key.size then s.key + 1 else 0 }

/-- Mixes the place number into the state. -/
def Stirring.mixPlace (s : Stirring) : Stirring :=
  let w := (s.words.getD s.place 0 ^^^ (s.previous * 1566083941)) - UInt32.ofNat s.place
  Stirring.next { s with words := s.words.setIfInBounds s.place w }

/-- The generator seeded by a key of at least one word. -/
def ofKey (key : Array UInt32) : Twister :=
  let start : Stirring := ⟨ofWord 19650218, 1, 0⟩
  let keyed := (List.range (Nat.max size key.size)).foldl (fun s _ => s.mixKey key) start
  let stirred := (List.range (size - 1)).foldl (fun s _ => s.mixPlace) keyed
  ⟨stirred.words.setIfInBounds 0 0x80000000, size⟩

/-- The 32-bit words of a number, lowest first, at most `count` of them. -/
def wordsOf : Nat → Nat → List UInt32
  | 0, _ => []
  | count + 1, n => if n = 0 then [] else UInt32.ofNat n :: wordsOf count (n >>> 32)

/-- The generator seeded by text. -/
def ofText (s : String) : Twister :=
  let bytes := s.toUTF8.toList
  let spelled := bytes ++ Sha512.hash bytes
  match wordsOf (spelled.length / 4 + 1) (Sha512.ofBytes spelled) with
  | [] => ofKey #[0]
  | key => ofKey key.toArray

/-! ## Output -/

/-- One word of the twisted state: the high bit of `high` and the other bits
of `low`, shifted and combined with the word `far`. -/
def twisted (high low far : UInt32) : UInt32 :=
  let y := (high &&& 0x80000000) ||| (low &&& 0x7FFFFFFF)
  far ^^^ (y >>> 1) ^^^ (if y &&& 1 == 1 then 0x9908B0DF else 0)

/-- All words twisted in turn, each from words that may be twisted already. -/
def twist (words : Array UInt32) : Array UInt32 :=
  (List.range size).foldl (fun ws i =>
    ws.setIfInBounds i (twisted (ws.getD i 0) (ws.getD ((i + 1) % size) 0)
      (ws.getD ((i + middle) % size) 0))) words

/-- Tempers the bits of an output word. -/
def temper (y : UInt32) : UInt32 :=
  let y := y ^^^ (y >>> 11)
  let y := y ^^^ ((y <<< 7) &&& 0x9D2C5680)
  let y := y ^^^ ((y <<< 15) &&& 0xEFC60000)
  y ^^^ (y >>> 18)

/-- The next word of the stream. -/
def next (t : Twister) : UInt32 × Twister :=
  let t := if t.used < size then t else ⟨twist t.words, 0⟩
  (temper (t.words.getD t.used 0), { t with used := t.used + 1 })

/-- A fraction in `[0, 1)` with 53 random bits: 27 from one word and 26 from
the next. -/
def draw (t : Twister) : Rat × Twister :=
  let (a, t) := t.next
  let (b, t) := t.next
  let bits := (a >>> 5).toNat <<< 26 + (b >>> 6).toNat
  (mkRat bits (1 <<< 53), t)

/-- A natural number of `count` random bits, lowest word first; the last word
gives its highest bits. -/
def bits : Nat → Nat → Twister → Nat × Twister
  | 0, _, t => (0, t)
  | words + 1, count, t =>
    let (w, t) := t.next
    if count ≤ 32 then ((w >>> UInt32.ofNat (32 - count)).toNat, t)
    else
      let (high, t) := bits words (count - 32) t
      (high <<< 32 + w.toNat, t)

/-- The number of bits of a natural number. -/
def bitLength (n : Nat) : Nat := if n = 0 then 0 else n.log2 + 1

/-- Draws of `count` bits until one is below `n`, at most `tries` times. -/
def belowFrom (n count : Nat) : Nat → Twister → Nat
  | 0, _ => 0
  | tries + 1, t =>
    let (k, t) := bits (count / 32 + 1) count t
    if k < n then k else belowFrom n count tries t

/-- An evenly distributed natural number below a positive `n`.  Half of all
draws succeed, so a thousand in vain do not occur. -/
def below (n : Nat) (t : Twister) : Nat := belowFrom n (bitLength n) 1000 t

/-- A bounded number is below its bound. -/
theorem below_lt {n : Nat} (h : 0 < n) (t : Twister) : below n t < n := by
  unfold below
  generalize 1000 = tries
  induction tries generalizing t with
  | zero => exact h
  | succ tries ih =>
    simp only [belowFrom]
    split
    · assumption
    · exact ih _

end Twister

end Ostinato
