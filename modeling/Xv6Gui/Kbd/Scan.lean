import Mathlib.Data.List.Basic

/-!
# Scan codes

The decoder of `kbdintr`: a scan code and the modifiers held so far give new modifiers and a
character.  The tables are those of `kbd.h`.
-/

namespace Xv6Gui.Kbd

/-! ## Tables -/

/-- `SHIFT`. -/
def shiftBit : UInt8 := 0x01

/-- `CTL`. -/
def ctlBit : UInt8 := 0x02

/-- `ALT`. -/
def altBit : UInt8 := 0x04

/-- `CAPSLOCK`. -/
def capslock : UInt8 := 0x08

/-- `NUMLOCK`. -/
def numlock : UInt8 := 0x10

/-- `SCROLLLOCK`. -/
def scrolllock : UInt8 := 0x20

/-- `E0ESC`. -/
def e0esc : UInt8 := 0x40

/-- A table of 256 bytes: its first entries in a row, and others by their index. -/
def table (row : List UInt8) (others : List (UInt8 × UInt8)) (i : UInt8) : UInt8 :=
  (others.lookup i).getD (row.getD i.toNat 0)

/-- `shiftcode`. -/
def shiftcode : UInt8 → UInt8 :=
  table [] [(0x1d, ctlBit), (0x2a, shiftBit), (0x36, shiftBit), (0x38, altBit), (0x9d, ctlBit),
    (0xb8, altBit)]

/-- `togglecode`. -/
def togglecode : UInt8 → UInt8 :=
  table [] [(0x3a, capslock), (0x45, numlock), (0x46, scrolllock)]

/-- The characters of a text. -/
def bytes (text : String) : List UInt8 := text.toList.map fun c => c.toNat.toUInt8

/-- `C(x)` for the characters of a string. -/
def control (text : String) : List UInt8 := (bytes text).map (· - 0x40)

/-- `KEY_UP` and the other special keys, the same in all maps. -/
def specialKeys : List (UInt8 × UInt8) :=
  [(0xc8, 0xe2), (0xd0, 0xe3), (0xc9, 0xe6), (0xd1, 0xe7), (0xcb, 0xe4), (0xcd, 0xe5),
    (0x97, 0xe0), (0xcf, 0xe1), (0xd2, 0xe8), (0xd3, 0xe9)]

/-- The keypad in `normalmap` and `shiftmap`, from 0x37 on. -/
def keypad : List UInt8 :=
  bytes "*" ++ [0] ++ bytes " " ++ List.replicate 13 0 ++ bytes "789-456+1230."

/-- `normalmap`. -/
def normalmap : UInt8 → UInt8 :=
  table ([0, 0x1b] ++ bytes "1234567890-=" ++ [8, 9] ++ bytes "qwertyuiop[]" ++ [10, 0] ++
    bytes "asdfghjkl;'`" ++ [0] ++ bytes "\\zxcvbnm,./" ++ [0] ++ keypad)
    ([(0x9c, 10), (0xb5, 0x2f)] ++ specialKeys)

/-- `shiftmap`. -/
def shiftmap : UInt8 → UInt8 :=
  table ([0, 0x1b] ++ bytes "!@#$%^&*()_+" ++ [8, 9] ++ bytes "QWERTYUIOP\x7b\x7d" ++ [10, 0] ++
    bytes "ASDFGHJKL:\"~" ++ [0] ++ bytes "|ZXCVBNM<>?" ++ [0] ++ keypad)
    ([(0x9c, 10), (0xb5, 0x2f)] ++ specialKeys)

/-- `ctlmap`. -/
def ctlmap : UInt8 → UInt8 :=
  table (List.replicate 16 0 ++ control "QWERTYUIOP" ++ [0, 0, 13, 0] ++ control "ASDFGHJKL" ++
    [0, 0, 0, 0] ++ control "\\ZXCVBNM" ++ [0, 0] ++ control "/")
    ([(0x9c, 13), (0xb5, 0xef)] ++ specialKeys)

/-- `charcode[shift & (CTL | SHIFT)]`. -/
def charcode (shift data : UInt8) : UInt8 :=
  if shift &&& ctlBit ≠ 0 then ctlmap data
  else if shift &&& shiftBit ≠ 0 then shiftmap data
  else normalmap data

/-! ## The decoder -/

/-- The effect of `CAPSLOCK` on a character. -/
def swapCase (c : UInt8) : UInt8 :=
  if 0x61 ≤ c ∧ c ≤ 0x7a then c - 0x20
  else if 0x41 ≤ c ∧ c ≤ 0x5a then c + 0x20
  else c

/-- A key is pressed. -/
def pressed (shift data : UInt8) : UInt8 × UInt8 :=
  let shift := (shift ||| shiftcode data) ^^^ togglecode data
  let c := charcode shift data
  (shift, if shift &&& capslock ≠ 0 then swapCase c else c)

/-- `kbdintr` up to the call of `keyboardHandler`: the new value of `shift` and the character, 0
when there is none.  All bits of `shift` are in its last byte. -/
def scan (shift data : UInt8) : UInt8 × UInt8 :=
  if data = 0xe0 then
    (shift ||| e0esc, 0)
  else if data &&& 0x80 ≠ 0 then
    let data := if shift &&& e0esc ≠ 0 then data else data &&& 0x7f
    (shift &&& ~~~(shiftcode data ||| e0esc), 0)
  else if shift &&& e0esc ≠ 0 then
    pressed (shift &&& ~~~e0esc) (data ||| 0x80)
  else
    pressed shift data

example : scan 0 0x1e = (0, 0x61) ∧ scan shiftBit 0x1a = (shiftBit, 0x7b) ∧
    scan ctlBit 0x35 = (ctlBit, 0xef) ∧ scan e0esc 0x4b = (0, 0xe4) := by decide +kernel

end Xv6Gui.Kbd
