import Octet.Register

/-!
# The registers of the machines

The 6502 has the byte registers `a`, `x` and `y`; `a` and `x` pair up to hold a word. The rest of
its registers are cells of the zero page: bytes, words that can serve as pointers, two pointers for
single accesses, and two words for shifts and multiplications. The 65816 has the same registers.

The 8080 has seven byte registers, six of which pair up to words. Memory is reached through `hl`.

## Main definitions

* `Mos` — the registers of the 6502 and the 65816
* `Intel` — the registers of the 8080
-/

namespace Octet

namespace Mos

def a : Register := .byte 1 "a" false
def x : Register := .byte 2 "x" false
def y : Register := .byte 3 "y" false
def ax : Register := .pair 4 "ax" a x false

/-- Zero page bytes. -/
def zeroBytes : List Register :=
  [.cell 10 "cate_zb0" 1 "cate_zb0" false, .cell 11 "cate_zb1" 1 "cate_zb1" false,
    .cell 12 "cate_zb2" 1 "cate_zb2" false, .cell 13 "cate_zb3" 1 "cate_zb3" false]

/-- Zero page words, which can serve as pointers. -/
def zeroWords : List Register :=
  [.cell 20 "cate_zw0" 2 "cate_zw0" true, .cell 21 "cate_zw1" 2 "cate_zw1" true,
    .cell 22 "cate_zw2" 2 "cate_zw2" true, .cell 23 "cate_zw3" 2 "cate_zw3" true,
    .cell 24 "cate_zw4" 2 "cate_zw4" true, .cell 25 "cate_zw5" 2 "cate_zw5" true]

/-- A pointer loaded from memory for one access. -/
def p0 : Register := .cell 40 "cate_p0" 2 "cate_p0" true
/-- A second pointer loaded from memory for one access. -/
def p1 : Register := .cell 41 "cate_p1" 2 "cate_p1" true
/-- The word that is being shifted. -/
def w0 : Register := .cell 42 "cate_w0" 2 "cate_w0" false
/-- The second factor of a multiplication of words. -/
def w1 : Register := .cell 43 "cate_w1" 2 "cate_w1" false

/-- The registers that are cells of the zero page. -/
def cells : List Register := zeroBytes ++ zeroWords ++ [p0, p1, w0, w1]

/-- All registers. -/
def all : List Register := [a, x, y, ax] ++ cells

end Mos

namespace Intel

def a : Register := .byte 1 "a" false
def b : Register := .byte 2 "b" false
def c : Register := .byte 3 "c" false
def d : Register := .byte 4 "d" false
def e : Register := .byte 5 "e" false
def h : Register := .byte 6 "h" false
def l : Register := .byte 7 "l" false
def bc : Register := .pair 8 "bc" c b false
def de : Register := .pair 9 "de" e d false
def hl : Register := .pair 10 "hl" l h true

/-- All registers. -/
def all : List Register := [a, b, c, d, e, h, l, bc, de, hl]

end Intel

end Octet
