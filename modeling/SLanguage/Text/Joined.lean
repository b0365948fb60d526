import SLanguage.Text.Blocks

/-!
# Joined characters

Visible characters that are written in one place when they meet: an Arabic lam before an alef, two
tone letters of Lisu, an emoji before a modifier of its skin tone (`joins`), and two Tifinagh
consonants around the joiner (`isBiconsonant`).
-/

namespace SLanguage.Text

def lamBlocks : Blocks where
  list :=
    [(0x644, 0x644), (0x6B5, 0x6B8), (0x76A, 0x76A), (0x8A6, 0x8A6), (0x8C7, 0x8C7)]
  ascending := by decide +kernel

def alefBlocks : Blocks where
  list :=
    [(0x622, 0x623), (0x625, 0x625), (0x627, 0x627), (0x671, 0x673), (0x675, 0x675), (0x773, 0x774),
     (0x870, 0x882)]
  ascending := by decide +kernel

/-- Emoji that show a person or a hand, and so take a skin tone. -/
def modifierBaseBlocks : Blocks where
  list :=
    [(0x261D, 0x261D), (0x26F9, 0x26F9), (0x270A, 0x270D), (0x1F385, 0x1F385), (0x1F3C2, 0x1F3C4),
     (0x1F3C7, 0x1F3C7), (0x1F3CA, 0x1F3CC), (0x1F442, 0x1F443), (0x1F446, 0x1F450),
     (0x1F466, 0x1F478), (0x1F47C, 0x1F47C), (0x1F481, 0x1F483), (0x1F485, 0x1F487),
     (0x1F48F, 0x1F48F), (0x1F491, 0x1F491), (0x1F4AA, 0x1F4AA), (0x1F574, 0x1F575),
     (0x1F57A, 0x1F57A), (0x1F590, 0x1F590), (0x1F595, 0x1F596), (0x1F645, 0x1F647),
     (0x1F64B, 0x1F64F), (0x1F6A3, 0x1F6A3), (0x1F6B4, 0x1F6B6), (0x1F6C0, 0x1F6C0),
     (0x1F6CC, 0x1F6CC), (0x1F90C, 0x1F90C), (0x1F90F, 0x1F90F), (0x1F918, 0x1F91F),
     (0x1F926, 0x1F926), (0x1F930, 0x1F939), (0x1F93C, 0x1F93E), (0x1F977, 0x1F977),
     (0x1F9B5, 0x1F9B6), (0x1F9B8, 0x1F9B9), (0x1F9BB, 0x1F9BB), (0x1F9CD, 0x1F9CF),
     (0x1F9D1, 0x1F9DD), (0x1FAC3, 0x1FAC5), (0x1FAF0, 0x1FAF8)]
  ascending := by decide +kernel

def modifierBlocks : Blocks := ⟨[(0x1F3FB, 0x1F3FF)], rfl⟩

/-- Tone letters that take a second one. -/
def firstToneBlocks : Blocks := ⟨[(0xA4F8, 0xA4FB)], rfl⟩

def secondToneBlocks : Blocks := ⟨[(0xA4FC, 0xA4FD)], rfl⟩

/-- Whether the first character is written in the place of the second. -/
def joins (a b : Char) : Bool :=
  lamBlocks.contains a && alefBlocks.contains b ||
  firstToneBlocks.contains a && secondToneBlocks.contains b ||
  modifierBaseBlocks.contains a && modifierBlocks.contains b

def tifinaghConsonantBlocks : Blocks := ⟨[(0x2D31, 0x2D65), (0x2D6F, 0x2D6F)], rfl⟩

def isBiconsonant (a b c : Char) : Bool :=
  tifinaghConsonantBlocks.contains a && b.toNat == 0x2D7F && tifinaghConsonantBlocks.contains c

end SLanguage.Text
