import Velocity.Lib.Bytes

/-! White space in encoded text: trimming it, and the words between it. -/

namespace Space

def runes : List Bytes :=
  [[0x09], [0x0a], [0x0b], [0x0c], [0x0d], [0x20], [0xc2, 0x85], [0xc2, 0xa0],
    [0xe1, 0x9a, 0x80], [0xe2, 0x80, 0xa8], [0xe2, 0x80, 0xa9], [0xe2, 0x80, 0xaf],
    [0xe2, 0x81, 0x9f], [0xe3, 0x80, 0x80]] ++
  (List.range 11).map fun i => [0xe2, 0x80, Fin.ofNat 256 (0x80 + i)]

/-- Drops the leading runes, each of at least one byte. -/
def dropRunes (runes : List Bytes) : Nat → Bytes → Bytes
  | 0, s => s
  | n + 1, s =>
    match runes.find? fun r => r.isPrefixOf s with
    | some r => dropRunes runes n (s.drop r.length)
    | none => s

def trim (s : Bytes) : Bytes :=
  let s := dropRunes runes s.length s
  (dropRunes (runes.map List.reverse) s.length s.reverse).reverse

/-- The words from a position on, with the bytes of the current one. -/
def scanWords : Nat → Bytes → Bytes → List Bytes
  | 0, word, _ => if word = [] then [] else [word]
  | n + 1, word, s =>
    match runes.find? fun r => r.isPrefixOf s with
    | some r => (if word = [] then [] else [word]) ++ scanWords n [] (s.drop r.length)
    | none =>
      match s with
      | [] => if word = [] then [] else [word]
      | b :: s => scanWords n (word ++ [b]) s

def words (s : Bytes) : List Bytes := scanWords (s.length + 1) [] s

end Space
