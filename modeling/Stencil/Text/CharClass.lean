import Stencil.Text.Basic

/-! Classes of characters, and trimming by one of them. A class is given by the lengths of runs of code
points: from zero on, a run of characters that are not in it and a run of characters that are take
turns. -/
namespace Stencil.Text

abbrev Runs := List Nat

/-- Whether the code point `n` is in a run of the set, where the first run is of it or not. -/
def Runs.holds (n : Nat) (inside : Bool) : Runs → Bool
  | [] => false
  | run :: runs => if n < run then inside else holds (n - run) (!inside) runs

def Runs.covers (runs : Runs) (c : Char) : Bool := runs.holds c.toNat false

/-- White space in the sense of the Unicode property of that name. -/
def blanks : Runs := [
  9, 5, 18, 1, 100, 1, 26, 1, 5599, 1, 2431, 11, 29, 2, 5, 1, 47, 1, 4000, 1]

def isBlank (c : Char) : Bool := blanks.covers c

/-- Drops the blanks at both ends. -/
def trim (text : List Char) : List Char :=
  ((text.dropWhile isBlank).reverse.dropWhile isBlank).reverse

example : trim "\t a b\u3000".toList = "a b".toList := by decide

/-- Letters, nonspacing marks, decimal digits and connectors of Unicode 17.0, and the two zero-width
joiners. -/
def wordChars : Runs := [
  170, 1, 10, 1, 4, 1, 5, 23, 1, 31, 1, 458, 4, 12, 14, 5, 7, 1, 1, 1, 17, 117, 1, 2, 2, 4, 1, 1, 6,
  1, 1, 3, 1, 1, 1, 20, 1, 83, 1, 139, 1, 5, 2, 166, 1, 38, 2, 1, 6, 41, 8, 45, 1, 1, 1, 2, 1, 2, 1,
  1, 8, 27, 4, 4, 29, 11, 5, 74, 4, 102, 1, 8, 2, 10, 1, 19, 2, 1, 16, 59, 2, 101, 14, 54, 4, 1, 2,
  1, 2, 46, 18, 28, 4, 11, 5, 24, 1, 7, 7, 75, 1, 32, 1, 55, 1, 2, 3, 8, 4, 1, 2, 20, 2, 10, 1, 17,
  3, 8, 2, 2, 2, 22, 1, 7, 1, 1, 3, 4, 2, 2, 3, 4, 8, 2, 13, 2, 1, 5, 2, 12, 10, 1, 1, 1, 2, 2, 2,
  6, 4, 2, 2, 22, 1, 7, 1, 2, 1, 2, 1, 2, 2, 1, 4, 2, 4, 2, 2, 3, 3, 1, 7, 4, 1, 1, 7, 16, 11, 2, 2,
  9, 1, 3, 1, 22, 1, 7, 1, 2, 1, 5, 2, 2, 3, 5, 1, 2, 4, 1, 2, 1, 15, 4, 2, 10, 9, 7, 1, 1, 3, 8, 2,
  2, 2, 22, 1, 7, 1, 2, 1, 5, 2, 2, 1, 1, 1, 4, 8, 1, 7, 2, 5, 2, 1, 5, 2, 10, 1, 1, 16, 2, 1, 6, 3,
  3, 1, 4, 3, 2, 1, 1, 1, 2, 3, 2, 3, 3, 3, 12, 6, 1, 12, 1, 2, 1, 21, 10, 16, 1, 3, 9, 1, 3, 1, 23,
  1, 16, 2, 5, 5, 3, 1, 4, 7, 2, 1, 3, 1, 2, 2, 4, 2, 10, 16, 2, 3, 8, 1, 3, 1, 23, 1, 10, 1, 5, 2,
  2, 1, 1, 6, 1, 5, 2, 14, 3, 1, 4, 2, 10, 1, 2, 13, 2, 2, 9, 1, 3, 1, 44, 3, 4, 8, 2, 5, 3, 8, 5,
  2, 10, 10, 6, 1, 1, 3, 18, 3, 24, 1, 9, 1, 1, 2, 7, 3, 1, 7, 3, 1, 1, 15, 10, 17, 58, 5, 15, 1,
  10, 39, 2, 1, 1, 1, 5, 1, 24, 1, 1, 1, 23, 2, 5, 1, 1, 1, 7, 1, 10, 2, 4, 32, 1, 23, 2, 6, 10, 11,
  1, 1, 1, 1, 1, 6, 8, 1, 36, 4, 14, 1, 5, 1, 18, 1, 36, 9, 1, 57, 43, 2, 4, 1, 6, 1, 2, 2, 13, 6,
  6, 2, 10, 3, 2, 7, 21, 2, 2, 6, 2, 1, 10, 3, 1, 2, 38, 1, 1, 5, 1, 2, 43, 1, 333, 1, 4, 2, 7, 1,
  1, 1, 4, 2, 41, 1, 4, 2, 33, 1, 4, 2, 7, 1, 1, 1, 4, 2, 15, 1, 57, 1, 4, 2, 67, 2, 3, 32, 16, 16,
  86, 2, 6, 3, 620, 2, 17, 1, 26, 5, 75, 6, 8, 7, 21, 10, 21, 12, 20, 12, 13, 1, 3, 1, 2, 12, 54, 1,
  7, 8, 1, 2, 11, 3, 1, 4, 2, 2, 10, 33, 3, 1, 11, 6, 89, 7, 43, 5, 70, 10, 31, 1, 3, 4, 2, 9, 1, 6,
  3, 10, 40, 2, 5, 11, 44, 4, 26, 6, 10, 38, 25, 2, 1, 4, 53, 1, 1, 1, 7, 1, 1, 1, 1, 2, 8, 6, 10,
  2, 11, 6, 10, 13, 1, 8, 14, 1, 31, 2, 12, 20, 4, 1, 48, 1, 5, 1, 1, 5, 1, 2, 8, 3, 10, 17, 9, 12,
  2, 1, 30, 1, 4, 2, 2, 1, 60, 1, 2, 3, 1, 1, 3, 14, 36, 8, 8, 2, 2, 8, 10, 3, 49, 2, 11, 5, 43, 2,
  3, 16, 3, 1, 13, 1, 21, 1, 3, 5, 534, 2, 6, 2, 38, 2, 6, 2, 8, 1, 1, 1, 1, 1, 1, 1, 31, 2, 53, 1,
  7, 1, 1, 3, 3, 1, 7, 3, 4, 2, 6, 4, 13, 5, 3, 1, 7, 15, 2, 49, 2, 19, 1, 28, 1, 13, 1, 16, 13, 51,
  13, 4, 1, 3, 12, 17, 1, 4, 1, 2, 10, 1, 1, 3, 5, 6, 1, 1, 1, 1, 1, 1, 4, 1, 11, 2, 4, 5, 5, 4, 1,
  52, 2, 2683, 229, 6, 9, 12, 38, 1, 1, 5, 1, 2, 56, 7, 1, 15, 24, 9, 7, 1, 7, 1, 7, 1, 7, 1, 7, 1,
  7, 1, 7, 1, 7, 1, 32, 47, 1, 469, 2, 35, 4, 3, 5, 5, 2, 4, 86, 2, 2, 2, 3, 1, 90, 1, 4, 5, 43, 1,
  94, 17, 32, 48, 16, 512, 6592, 64, 22157, 67, 46, 2, 269, 3, 28, 20, 48, 4, 10, 1, 103, 10, 2, 37,
  9, 2, 103, 2, 82, 20, 50, 2, 2, 5, 1, 19, 52, 14, 50, 16, 2, 10, 10, 6, 24, 3, 1, 1, 49, 2, 34,
  14, 29, 3, 3, 1, 48, 2, 4, 2, 2, 17, 11, 6, 31, 1, 47, 2, 2, 2, 2, 9, 13, 3, 10, 6, 23, 3, 1, 1,
  1, 1, 69, 24, 3, 2, 11, 1, 2, 4, 3, 1, 1, 10, 6, 2, 6, 2, 6, 9, 7, 1, 7, 1, 43, 1, 14, 6, 115, 2,
  1, 2, 1, 4, 1, 2, 10, 6, 11172, 12, 23, 4, 49, 8452, 366, 2, 106, 38, 7, 12, 5, 5, 12, 1, 13, 1,
  5, 1, 1, 1, 2, 1, 2, 1, 108, 33, 363, 18, 64, 2, 54, 40, 12, 4, 16, 16, 16, 3, 2, 24, 3, 32, 5, 1,
  135, 19, 10, 7, 26, 4, 1, 1, 26, 11, 89, 3, 6, 2, 6, 2, 6, 2, 3, 35, 12, 1, 26, 1, 19, 1, 2, 1,
  15, 2, 14, 34, 123, 258, 1, 130, 29, 3, 49, 15, 1, 31, 32, 13, 20, 1, 8, 6, 43, 5, 30, 2, 36, 4,
  8, 48, 158, 2, 10, 6, 36, 4, 36, 4, 40, 8, 52, 12, 11, 1, 15, 1, 7, 1, 2, 1, 11, 1, 15, 1, 7, 1,
  2, 3, 52, 12, 311, 9, 22, 10, 8, 24, 6, 1, 42, 1, 9, 69, 6, 2, 1, 1, 44, 1, 2, 3, 1, 2, 23, 10,
  23, 9, 31, 65, 19, 1, 2, 10, 22, 10, 26, 6, 26, 38, 56, 6, 2, 64, 4, 1, 2, 5, 8, 1, 3, 1, 29, 2,
  3, 4, 1, 32, 29, 3, 29, 35, 8, 1, 30, 25, 54, 10, 22, 10, 19, 13, 18, 110, 73, 55, 51, 13, 51, 13,
  40, 8, 10, 6, 38, 3, 5, 1, 23, 250, 42, 1, 2, 3, 2, 16, 6, 50, 35, 10, 1, 8, 33, 31, 22, 42, 21,
  27, 23, 10, 1, 1, 68, 31, 16, 9, 3, 1, 45, 3, 4, 2, 2, 7, 1, 13, 25, 7, 10, 6, 44, 1, 8, 1, 10, 4,
  1, 2, 1, 8, 36, 2, 1, 9, 2, 1, 48, 3, 9, 2, 4, 4, 4, 2, 12, 1, 1, 35, 18, 1, 25, 3, 3, 2, 1, 1, 2,
  6, 4, 62, 7, 1, 1, 1, 4, 1, 15, 1, 10, 7, 48, 3, 8, 5, 10, 6, 2, 3, 8, 2, 2, 2, 22, 1, 7, 1, 2, 1,
  5, 1, 3, 2, 1, 15, 1, 12, 5, 4, 7, 3, 5, 11, 10, 1, 1, 2, 1, 1, 38, 1, 1, 3, 6, 13, 1, 1, 4, 13,
  2, 29, 53, 3, 8, 2, 3, 1, 5, 5, 10, 4, 4, 30, 48, 3, 6, 1, 1, 4, 2, 1, 4, 1, 1, 8, 10, 166, 47, 3,
  4, 6, 2, 1, 2, 23, 6, 34, 48, 3, 8, 2, 1, 1, 2, 3, 1, 11, 10, 38, 44, 1, 1, 2, 6, 1, 2, 7, 10, 6,
  20, 28, 27, 2, 1, 1, 1, 2, 4, 1, 5, 4, 10, 6, 7, 185, 44, 3, 9, 1, 2, 101, 74, 21, 8, 2, 1, 2, 8,
  1, 2, 1, 24, 11, 2, 1, 2, 1, 1, 1, 1, 12, 10, 70, 8, 2, 39, 3, 4, 2, 2, 4, 2, 1, 1, 28, 57, 1, 5,
  8, 1, 8, 7, 2, 62, 1, 2, 3, 1, 18, 73, 103, 1, 1, 3, 1, 1, 89, 33, 15, 10, 6, 9, 1, 37, 1, 7, 1,
  6, 1, 2, 15, 10, 24, 30, 2, 22, 2, 7, 1, 2, 1, 2, 73, 7, 1, 2, 1, 44, 3, 1, 1, 2, 1, 9, 8, 10, 6,
  6, 1, 2, 1, 32, 6, 2, 3, 1, 1, 2, 7, 10, 6, 44, 4, 10, 246, 21, 11, 3, 1, 13, 1, 34, 2, 5, 5, 1,
  1, 1, 13, 11, 85, 1, 79, 922, 230, 196, 2636, 97, 15, 1072, 16, 22, 10, 3995, 5, 583, 6841, 42, 3,
  13, 1734, 569, 7, 31, 1, 10, 6, 79, 1, 10, 6, 30, 2, 5, 11, 55, 9, 4, 12, 10, 9, 21, 5, 19, 432,
  45, 3, 10, 198, 64, 32, 25, 2, 25, 44, 75, 4, 2, 62, 17, 64, 2, 1, 2, 13, 2, 12, 7382, 41, 32, 97,
  115, 8701, 4, 1, 7, 1, 2, 1, 291, 15, 1, 29, 3, 2, 1, 14, 4, 8, 396, 2308, 107, 5, 13, 3, 9, 7,
  10, 3, 2, 4177, 10, 518, 46, 2, 23, 544, 3, 17, 8, 2, 7, 30, 4, 148, 3, 443, 85, 1, 71, 1, 2, 2,
  1, 2, 2, 2, 4, 1, 12, 1, 1, 1, 7, 1, 65, 1, 4, 2, 8, 1, 7, 1, 28, 1, 4, 1, 5, 1, 1, 3, 7, 1, 340,
  2, 25, 1, 25, 1, 31, 1, 25, 1, 31, 1, 25, 1, 31, 1, 25, 1, 31, 1, 25, 1, 8, 2, 50, 512, 55, 4, 50,
  8, 1, 14, 1, 22, 5, 1, 15, 1104, 31, 6, 6, 213, 7, 1, 17, 2, 7, 1, 2, 1, 5, 5, 62, 33, 1, 112, 45,
  3, 14, 2, 10, 4, 1, 321, 31, 17, 58, 470, 42, 214, 43, 197, 31, 1, 22, 8, 2, 224, 7, 1, 4, 1, 2,
  1, 15, 1, 197, 11, 7, 41, 76, 4, 10, 1190, 4, 1, 27, 1, 2, 1, 1, 2, 1, 1, 10, 1, 4, 1, 1, 1, 1, 6,
  1, 4, 1, 1, 1, 1, 1, 1, 3, 1, 2, 1, 1, 2, 1, 1, 1, 1, 1, 1, 1, 1, 1, 1, 2, 1, 1, 2, 4, 1, 7, 1, 4,
  1, 4, 1, 1, 1, 10, 1, 17, 5, 3, 1, 5, 1, 17, 3380, 10, 1030, 42720, 32, 4382, 2, 5774, 2, 7473,
  15, 622, 2466, 542, 1506, 4939, 5, 8490, 707718, 240]

def isWordChar (c : Char) : Bool :=
  if c.toNat < 0x80 then isLetter c || isDigit c else wordChars.covers c

/-- Characters that a message shows as they are: letters, marks, numbers, punctuation and symbols of
Unicode 17.0, and of all blanks the ASCII space alone. -/
def printables : Runs := [
  161, 12, 1, 714, 2, 6, 4, 7, 1, 1, 1, 20, 1, 397, 1, 38, 2, 50, 2, 3, 1, 55, 8, 27, 4, 6, 17, 22,
  1, 192, 1, 48, 2, 59, 2, 101, 14, 59, 2, 49, 2, 15, 1, 28, 2, 1, 1, 11, 5, 32, 7, 75, 1, 161, 1,
  8, 2, 2, 2, 22, 1, 7, 1, 1, 3, 4, 2, 9, 2, 2, 2, 4, 8, 1, 4, 2, 1, 5, 2, 25, 2, 3, 1, 6, 4, 2, 2,
  22, 1, 7, 1, 2, 1, 2, 1, 2, 2, 1, 1, 5, 4, 2, 2, 3, 3, 1, 7, 4, 1, 1, 7, 17, 10, 3, 1, 9, 1, 3, 1,
  22, 1, 7, 1, 2, 1, 5, 2, 10, 1, 3, 1, 3, 2, 1, 15, 4, 2, 12, 7, 7, 1, 3, 1, 8, 2, 2, 2, 22, 1, 7,
  1, 2, 1, 5, 2, 9, 2, 2, 2, 3, 7, 3, 4, 2, 1, 5, 2, 18, 10, 2, 1, 6, 3, 3, 1, 4, 3, 2, 1, 1, 1, 2,
  3, 2, 3, 3, 3, 12, 4, 5, 3, 3, 1, 4, 2, 1, 6, 1, 14, 21, 5, 13, 1, 3, 1, 23, 1, 16, 2, 9, 1, 3, 1,
  4, 7, 2, 1, 3, 1, 2, 2, 4, 2, 10, 7, 22, 1, 3, 1, 23, 1, 10, 1, 5, 2, 9, 1, 3, 1, 4, 7, 2, 5, 3,
  1, 4, 2, 10, 1, 3, 12, 13, 1, 3, 1, 51, 1, 3, 1, 6, 4, 16, 2, 26, 1, 3, 1, 18, 3, 24, 1, 9, 1, 1,
  2, 7, 3, 1, 4, 6, 1, 1, 1, 8, 6, 10, 2, 3, 12, 58, 4, 29, 37, 2, 1, 1, 1, 5, 1, 24, 1, 1, 1, 23,
  2, 5, 1, 1, 1, 7, 1, 10, 2, 4, 32, 72, 1, 36, 4, 39, 1, 36, 1, 15, 1, 13, 37, 198, 1, 1, 5, 1, 2,
  377, 1, 4, 2, 7, 1, 1, 1, 4, 2, 41, 1, 4, 2, 33, 1, 4, 2, 7, 1, 1, 1, 4, 2, 15, 1, 57, 1, 4, 2,
  67, 2, 32, 3, 26, 6, 86, 2, 6, 2, 640, 1, 28, 3, 89, 7, 22, 9, 24, 9, 20, 12, 13, 1, 3, 1, 2, 12,
  94, 2, 10, 6, 10, 6, 14, 1, 11, 6, 89, 7, 43, 5, 70, 10, 31, 1, 12, 4, 12, 4, 1, 3, 42, 2, 5, 11,
  44, 4, 26, 6, 11, 3, 62, 2, 65, 1, 29, 2, 11, 6, 10, 6, 14, 2, 46, 2, 12, 20, 77, 1, 166, 8, 60,
  3, 15, 3, 62, 5, 43, 2, 11, 8, 43, 5, 534, 2, 6, 2, 38, 2, 6, 2, 8, 1, 1, 1, 1, 1, 1, 1, 31, 2,
  53, 1, 15, 1, 14, 2, 6, 1, 19, 2, 3, 1, 9, 17, 24, 8, 47, 17, 2, 2, 27, 1, 13, 3, 34, 14, 33, 15,
  140, 4, 666, 22, 11, 21, 1812, 2, 382, 5, 45, 1, 1, 5, 1, 2, 56, 7, 2, 14, 24, 9, 7, 1, 7, 1, 7,
  1, 7, 1, 7, 1, 7, 1, 7, 1, 7, 1, 126, 34, 26, 1, 89, 12, 214, 26, 16, 1, 63, 1, 86, 2, 103, 5, 43,
  1, 94, 1, 86, 9, 48, 1, 29293, 3, 55, 9, 348, 20, 184, 8, 221, 20, 60, 3, 10, 6, 56, 8, 70, 8, 12,
  6, 116, 11, 30, 3, 78, 1, 11, 4, 33, 1, 55, 9, 14, 2, 10, 2, 103, 24, 28, 10, 6, 2, 6, 2, 6, 9, 7,
  1, 7, 1, 60, 4, 126, 2, 10, 6, 11172, 12, 23, 4, 49, 8452, 366, 2, 106, 38, 7, 12, 5, 5, 26, 1, 5,
  1, 1, 1, 2, 1, 2, 1, 650, 32, 42, 6, 51, 1, 19, 1, 4, 4, 5, 1, 135, 4, 190, 3, 6, 2, 6, 2, 6, 2,
  3, 3, 7, 1, 7, 13, 2, 2, 12, 1, 26, 1, 19, 1, 2, 1, 15, 2, 14, 34, 123, 5, 3, 4, 45, 3, 88, 1, 13,
  3, 1, 47, 46, 130, 29, 3, 49, 15, 28, 4, 36, 9, 30, 5, 43, 5, 30, 1, 37, 4, 14, 42, 158, 2, 10, 6,
  36, 4, 36, 4, 40, 8, 52, 11, 12, 1, 15, 1, 7, 1, 2, 1, 11, 1, 15, 1, 7, 1, 2, 3, 52, 12, 311, 9,
  22, 10, 8, 24, 6, 1, 42, 1, 9, 69, 6, 2, 1, 1, 44, 1, 2, 3, 1, 2, 23, 1, 72, 8, 9, 48, 19, 1, 2,
  5, 33, 3, 27, 5, 27, 38, 56, 4, 20, 2, 50, 1, 2, 5, 8, 1, 3, 1, 29, 2, 3, 4, 10, 7, 9, 7, 64, 32,
  39, 4, 12, 9, 54, 3, 29, 2, 27, 5, 26, 7, 4, 12, 7, 80, 73, 55, 51, 13, 51, 7, 46, 8, 10, 6, 38,
  3, 29, 8, 2, 208, 31, 1, 42, 1, 3, 2, 2, 16, 6, 8, 9, 33, 46, 8, 42, 22, 26, 38, 28, 20, 23, 9,
  78, 4, 36, 9, 62, 1, 5, 13, 25, 7, 10, 6, 53, 1, 18, 8, 39, 9, 96, 1, 20, 11, 18, 1, 47, 62, 7, 1,
  1, 1, 4, 1, 15, 1, 11, 6, 59, 5, 10, 6, 4, 1, 8, 2, 2, 2, 22, 1, 7, 1, 2, 1, 5, 1, 10, 2, 2, 2, 3,
  2, 1, 6, 1, 5, 7, 2, 7, 3, 5, 11, 10, 1, 1, 2, 1, 1, 38, 1, 10, 1, 1, 2, 1, 1, 4, 1, 10, 1, 2, 8,
  2, 29, 92, 1, 5, 30, 72, 8, 10, 166, 54, 2, 38, 34, 69, 11, 10, 6, 13, 19, 58, 6, 10, 6, 20, 28,
  27, 2, 15, 4, 23, 185, 60, 100, 83, 12, 8, 2, 1, 2, 8, 1, 2, 1, 30, 1, 2, 2, 12, 9, 10, 70, 8, 2,
  46, 2, 11, 27, 72, 8, 83, 13, 73, 7, 10, 86, 8, 88, 34, 14, 10, 6, 9, 1, 45, 1, 14, 10, 29, 3, 32,
  2, 22, 1, 14, 73, 7, 1, 2, 1, 44, 3, 1, 1, 2, 1, 9, 8, 10, 6, 6, 1, 2, 1, 37, 1, 2, 1, 6, 7, 10,
  6, 44, 4, 10, 246, 25, 7, 17, 1, 41, 3, 29, 85, 1, 15, 50, 13, 923, 102, 111, 1, 5, 11, 196, 2636,
  99, 13, 1072, 16, 22, 10, 3995, 5, 583, 6841, 58, 1734, 569, 7, 31, 1, 10, 4, 81, 1, 10, 6, 30, 2,
  6, 10, 70, 10, 10, 1, 7, 1, 21, 5, 19, 432, 58, 198, 91, 5, 25, 2, 25, 44, 75, 4, 57, 7, 17, 64,
  5, 11, 7, 9, 7382, 41, 32, 97, 115, 8701, 4, 1, 7, 1, 2, 1, 291, 15, 1, 29, 3, 2, 1, 14, 4, 8,
  396, 2308, 107, 5, 13, 3, 9, 7, 10, 2, 4, 3936, 253, 3, 436, 6, 23, 15, 17, 15, 46, 2, 23, 9, 116,
  60, 246, 10, 39, 2, 74, 8, 112, 21, 70, 122, 20, 12, 20, 12, 87, 9, 25, 135, 85, 1, 71, 1, 2, 2,
  1, 2, 2, 2, 4, 1, 12, 1, 1, 1, 7, 1, 65, 1, 4, 2, 8, 1, 7, 1, 28, 1, 4, 1, 5, 1, 1, 3, 7, 1, 340,
  2, 292, 2, 702, 15, 5, 1, 15, 1104, 31, 6, 6, 213, 7, 1, 17, 2, 7, 1, 2, 1, 5, 5, 62, 33, 1, 112,
  45, 3, 14, 2, 10, 4, 2, 320, 31, 17, 58, 5, 1, 464, 42, 214, 43, 4, 1, 192, 31, 1, 22, 8, 2, 224,
  7, 1, 4, 1, 2, 1, 15, 1, 197, 2, 16, 41, 76, 4, 10, 4, 2, 785, 68, 76, 61, 194, 4, 1, 27, 1, 2, 1,
  1, 2, 1, 1, 10, 1, 4, 1, 1, 1, 1, 6, 1, 4, 1, 1, 1, 1, 1, 1, 3, 1, 2, 1, 1, 2, 1, 1, 1, 1, 1, 1,
  1, 1, 1, 1, 2, 1, 1, 2, 4, 1, 7, 1, 4, 1, 4, 1, 1, 1, 10, 1, 17, 5, 3, 1, 5, 1, 17, 52, 2, 270,
  44, 4, 100, 12, 15, 2, 15, 1, 15, 1, 37, 10, 174, 56, 29, 13, 44, 4, 9, 7, 2, 14, 6, 154, 985, 3,
  17, 3, 13, 3, 218, 6, 12, 4, 1, 15, 12, 4, 56, 8, 10, 6, 40, 8, 30, 2, 12, 4, 2, 14, 9, 39, 344,
  8, 14, 2, 13, 3, 11, 3, 57, 1, 1, 4, 16, 2, 12, 4, 10, 7, 147, 1, 103, 1029, 42720, 32, 4382, 2,
  5774, 2, 7473, 15, 622, 2466, 542, 1506, 4939, 5, 8490, 707718, 240]

def isPrintable (c : Char) : Bool :=
  if c.toNat < 0x80 then 0x20 ≤ c.toNat && c.toNat < 0x7f else printables.covers c

end Stencil.Text
