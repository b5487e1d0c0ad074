import Mathlib

/-!
# `Base.Bytes` — bytes, C strings and the `<string.h>` calls of the program

Everything the program moves is bytes: job files, pipe messages, keys, values and pipe paths. A buffer
is a `List Byte`; a C string is a `CStr`, the bytes in front of the terminating NUL, carrying the proof
that no NUL is among them, so that `strcmp` and `strlen` are functions of the bytes alone.

## Contents
- **Bytes.** `Byte`, the ASCII constants the parsers compare with, `ascii` for string literals.
- **C strings.** `CStr`, `CStr.ofBuffer` (what a `char *` into a buffer denotes), `strcmp`, `strncmp`,
  `strncpy`, and the link of `strcmp` to the lexicographic order.
- **Descriptors.** `readBytes`, a `read` call on a byte stream held in memory.
-/

namespace Kvs

/-- How many sessions the server keeps: its managers, and the slots of the registration queue. -/
abbrev MAX_SESSION_COUNT : Nat := 3

instance : NeZero MAX_SESSION_COUNT := ⟨by decide⟩

/-- The limit of a pipe path, shared by client and server. -/
abbrev MAX_PIPE_PATH_LENGTH : Nat := 80

/-! ## Bytes -/

/-- A `char` of a buffer, as the unsigned byte it stores. -/
abbrev Byte := UInt8

/-- The bytes of an ASCII string literal. -/
def ascii (s : String) : List Byte := s.toList.map (fun c => c.toNat.toUInt8)

/-- `'\n'` -/
abbrev NL : Byte := 10
/-- `' '` -/
abbrev SP : Byte := 32
/-- `'#'` -/
abbrev HASH : Byte := 35
/-- `'('` -/
abbrev LPAREN : Byte := 40
/-- `')'` -/
abbrev RPAREN : Byte := 41
/-- `','` -/
abbrev COMMA : Byte := 44
/-- `'['` -/
abbrev LBRACK : Byte := 91
/-- `']'` -/
abbrev RBRACK : Byte := 93
/-- `'|'` -/
abbrev BAR : Byte := 124

/-! ## C strings -/

/-- A NUL-terminated string: its bytes, none of them NUL. -/
@[ext] structure CStr where
  bytes : List Byte
  noNul : (0 : Byte) ∉ bytes
  deriving DecidableEq

instance : Inhabited CStr := ⟨⟨[], by simp⟩⟩

/-- The bytes of a buffer in front of its first NUL. -/
def untilNul (buffer : List Byte) : List Byte := buffer.takeWhile (· ≠ 0)

theorem nul_notMem_untilNul (buffer : List Byte) : (0 : Byte) ∉ untilNul buffer := by
  intro h
  have := List.mem_takeWhile_imp h
  simp at this

/-- The string a `char *` to the start of `buffer` denotes. -/
def CStr.ofBuffer (buffer : List Byte) : CStr := ⟨untilNul buffer, nul_notMem_untilNul buffer⟩

/-- A buffer that starts with `s` and a NUL denotes `s`, whatever follows. -/
theorem untilNul_append_nul {s : List Byte} (hs : (0 : Byte) ∉ s) (rest : List Byte) :
    untilNul (s ++ 0 :: rest) = s := by
  unfold untilNul
  rw [List.takeWhile_append_of_pos (by
    intro b hb
    simp only [ne_eq, decide_eq_true_eq]
    rintro rfl
    exact hs hb)]
  simp

theorem untilNul_length_lt {s : List Byte} (hs : (0 : Byte) ∈ s) : (untilNul s).length < s.length := by
  refine lt_of_le_of_ne (List.takeWhile_sublist _).length_le (fun hlen => ?_)
  have hall : untilNul s = s := (List.takeWhile_sublist _).eq_of_length hlen
  have hnone := nul_notMem_untilNul s
  rw [hall] at hnone
  exact hnone hs

theorem untilNul_of_noNul {s : List Byte} (hs : (0 : Byte) ∉ s) : untilNul s = s := by
  unfold untilNul
  rw [List.takeWhile_eq_self_iff]
  intro b hb
  simp only [ne_eq, decide_eq_true_eq]
  rintro rfl
  exact hs hb

@[simp] theorem CStr.ofBuffer_append_nul (s : CStr) (rest : List Byte) :
    CStr.ofBuffer (s.bytes ++ 0 :: rest) = s :=
  CStr.ext (untilNul_append_nul s.noNul rest)

/-- The loop of `strcmp`: the difference of the first two bytes that differ, the end of a string
    counting as NUL. -/
def strcmpBytes : List Byte → List Byte → Int
  | [], [] => 0
  | [], b :: _ => 0 - (b.toNat : Int)
  | a :: _, [] => a.toNat
  | a :: s, b :: t => if a = b then strcmpBytes s t else (a.toNat : Int) - b.toNat

/-- `strcmp(s, t)` -/
def strcmp (s t : CStr) : Int := strcmpBytes s.bytes t.bytes

/-- `strncmp(buf, lit, n)`, with the end of a list read as NUL. -/
def strncmp : List Byte → List Byte → Nat → Int
  | _, _, 0 => 0
  | buf, lit, n + 1 =>
      let a := buf.headD 0
      let b := lit.headD 0
      if a ≠ b then (a.toNat : Int) - b.toNat
      else if a = 0 then 0
      else strncmp buf.tail lit.tail n

/-- `strncpy(dest, src, n)`: the `n` bytes it leaves in `dest`. -/
def strncpy (src : List Byte) (n : Nat) : List Byte :=
  let copied := untilNul (src.take n)
  copied ++ List.replicate (n - copied.length) 0

/-- `snprintf(dest, n, ...)` of this text: what it leaves in `dest`. -/
def snprintf (n : Nat) (text : List Byte) : List Byte := text.take (n - 1) ++ [0]

theorem toNat_pos_of_ne_zero {b : Byte} (h : b ≠ 0) : 0 < b.toNat := by
  have : b.toNat ≠ 0 := fun hz => h (UInt8.toNat_inj.mp hz)
  omega

/-- The order `strcmp` decides: `0 < strcmp(s, t)` says that `t` comes first lexicographically. -/
theorem strcmpBytes_pos_iff {s t : List Byte} (hs : (0 : Byte) ∉ s) (ht : (0 : Byte) ∉ t) :
    0 < strcmpBytes s t ↔ t.map UInt8.toNat < s.map UInt8.toNat := by
  induction s generalizing t with
  | nil => cases t <;> simp [strcmpBytes]
  | cons a s ih =>
      cases t with
      | nil =>
          have ha : a ≠ 0 := fun h => hs (by simp [h])
          have := toNat_pos_of_ne_zero ha
          simp only [strcmpBytes, List.map_nil, List.map_cons, List.nil_lt_cons, iff_true]
          omega
      | cons b t =>
          have hs' : (0 : Byte) ∉ s := fun h => hs (List.mem_cons_of_mem a h)
          have ht' : (0 : Byte) ∉ t := fun h => ht (List.mem_cons_of_mem b h)
          simp only [strcmpBytes, List.map_cons, List.cons_lt_cons_iff]
          by_cases hab : a = b
          · subst hab
            simp [ih hs' ht']
          · -- the first difference decides both
            have hne : b.toNat ≠ a.toNat := fun h => hab (UInt8.toNat_inj.mp h.symm)
            simp only [hab, if_false, hne, false_and, or_false]
            omega

theorem strcmpBytes_eq_zero_iff {s t : List Byte} (hs : (0 : Byte) ∉ s) (ht : (0 : Byte) ∉ t) :
    strcmpBytes s t = 0 ↔ s = t := by
  induction s generalizing t with
  | nil =>
      cases t with
      | nil => simp [strcmpBytes]
      | cons b t =>
          have := toNat_pos_of_ne_zero (b := b) (fun h => ht (by simp [h]))
          simp only [strcmpBytes, List.nil_eq, reduceCtorEq, iff_false]
          omega
  | cons a s ih =>
      cases t with
      | nil =>
          have := toNat_pos_of_ne_zero (b := a) (fun h => hs (by simp [h]))
          simp only [strcmpBytes, reduceCtorEq, iff_false]
          omega
      | cons b t =>
          have hs' : (0 : Byte) ∉ s := fun h => hs (List.mem_cons_of_mem a h)
          have ht' : (0 : Byte) ∉ t := fun h => ht (List.mem_cons_of_mem b h)
          by_cases hab : a = b
          · subst hab
            simp [strcmpBytes, ih hs' ht']
          · have hne : a.toNat ≠ b.toNat := fun h => hab (UInt8.toNat_inj.mp h)
            simp only [strcmpBytes, hab, if_false, List.cons.injEq, false_and, iff_false]
            omega

@[simp] theorem strcmp_eq_zero (s t : CStr) : strcmp s t = 0 ↔ s = t := by
  unfold strcmp
  rw [strcmpBytes_eq_zero_iff s.noNul t.noNul]
  exact ⟨CStr.ext, fun h => h ▸ rfl⟩

/-- `0 < strcmp(s, t)` is a strict order on strings, that of their bytes. -/
theorem strcmp_pos_iff (s t : CStr) :
    0 < strcmp s t ↔ t.bytes.map UInt8.toNat < s.bytes.map UInt8.toNat :=
  strcmpBytes_pos_iff s.noNul t.noNul

theorem strcmpBytes_swap (s t : List Byte) : strcmpBytes t s = -strcmpBytes s t := by
  induction s generalizing t with
  | nil => cases t <;> simp [strcmpBytes]
  | cons a s ih =>
      cases t with
      | nil => simp [strcmpBytes]
      | cons b t =>
          by_cases hab : a = b
          · subst hab
            simp [strcmpBytes, ih]
          · have hba : b ≠ a := fun h => hab h.symm
            simp only [strcmpBytes, hab, hba, if_false]
            omega

theorem strcmp_swap (s t : CStr) : strcmp t s = -strcmp s t := strcmpBytes_swap s.bytes t.bytes

theorem strcmp_le_total (s t : CStr) : strcmp s t ≤ 0 ∨ strcmp t s ≤ 0 := by
  rw [strcmp_swap s t]
  omega

theorem strcmp_le_trans {s t u : CStr} (hst : strcmp s t ≤ 0) (htu : strcmp t u ≤ 0) :
    strcmp s u ≤ 0 := by
  rw [← not_lt, strcmp_pos_iff, not_lt] at hst htu ⊢
  exact hst.trans htu

/-- `strncmp` with a NUL-free literal of that length tests the first bytes for equality. -/
theorem strncmp_eq_zero_iff {lit : List Byte} (hlit : (0 : Byte) ∉ lit) (buf : List Byte) :
    strncmp buf lit lit.length = 0 ↔ buf.take lit.length = lit := by
  induction lit generalizing buf with
  | nil => simp [strncmp]
  | cons b lit ih =>
      have hb : b ≠ 0 := fun h => hlit (by simp [h])
      have hlit' : (0 : Byte) ∉ lit := fun h => hlit (List.mem_cons_of_mem b h)
      cases buf with
      | nil =>
          have := toNat_pos_of_ne_zero hb
          -- the text has ended: its end counts as a NUL, and the literal has none
          have hne : (0 : Byte) ≠ b := fun h => hb h.symm
          simp only [List.length_cons, strncmp, List.headD_nil, List.headD_cons, if_pos hne,
            List.take_nil, List.nil_eq, reduceCtorEq, iff_false, UInt8.toNat_zero]
          omega
      | cons a buf =>
          simp only [List.length_cons, strncmp, List.headD_cons, List.tail_cons, List.take_succ_cons,
            List.cons.injEq]
          by_cases hab : a = b
          · subst hab
            simp [hb, ih hlit']
          · have hne : a.toNat ≠ b.toNat := fun h => hab (UInt8.toNat_inj.mp h)
            simp only [ne_eq, hab, not_false_eq_true, if_true, false_and, iff_false]
            omega

/-- `strncpy` from a string shorter than the limit: the string and NULs up to the limit. -/
theorem strncpy_of_length_le {s : CStr} {n : Nat} (h : s.bytes.length ≤ n) :
    strncpy s.bytes n = s.bytes ++ List.replicate (n - s.bytes.length) 0 := by
  simp only [strncpy, List.take_of_length_le h, untilNul_of_noNul s.noNul]

/-! ## Descriptors -/

/-- What is left to read on a descriptor. -/
abbrev Stream := List Byte

/-- `read(fd, buf, n)`: the bytes stored in `buf` and what is left. The call returns the number of
    bytes stored: `n` while that many remain, fewer at the end of the file. -/
def readBytes (s : Stream) (n : Nat) : List Byte × Stream := (s.take n, s.drop n)

end Kvs
