import Kvs.Base.Buffer
import Kvs.Lib.BoundedBuffer
import Kvs.Server.Parser

/-!
# `Server.Register` — the registration queue

`host_FIFO` reads registrations into `BUFFER`, a ring of `MAX_SESSION_COUNT` slots that are zeroed once,
and the manager threads copy them out and take the three pipe paths from the text with `sscanf`. The
ring is the bounded buffer of `Lib.BoundedBuffer`; what a read makes of a slot is `overwrite`.
-/

namespace Kvs.Server

/-- The size of a slot and of `client_paths`: `1 + 3 * MAX_PIPE_PATH_LENGTH`. -/
abbrev SLOT_SIZE : Nat := 1 + 3 * MAX_PIPE_PATH_LENGTH

/-! ## The directives of `sscanf` -/

/-- The text behind an optional sign. -/
def skipSign (s : List Byte) : List Byte :=
  if s.head? = some 43 ∨ s.head? = some 45 then s.tail else s

/-- `%d`: white space, a sign, digits. -/
def scanInt (s : List Byte) : Option (Int × List Byte) :=
  let s := s.dropWhile isSpace
  let digits := (skipSign s).takeWhile isDigit
  if digits = [] then none
  else
    let n : Int := digitsValue digits
    some (if s.head? = some 45 then -n else n, (skipSign s).dropWhile isDigit)

/-- A character of the format that stands for itself. -/
def scanChar (c : Byte) (s : List Byte) : Option (List Byte) :=
  if s.head? = some c then some s.tail else none

/-- `%[^|]`: the bytes up to a bar, at least one. -/
def scanField (s : List Byte) : Option (List Byte × List Byte) :=
  let field := s.takeWhile (· ≠ BAR)
  if field = [] then none else some (field, s.dropWhile (· ≠ BAR))

/-- `%s`: white space, and then the bytes up to the next, at least one. -/
def scanWord (s : List Byte) : Option (List Byte × List Byte) :=
  let s := s.dropWhile isSpace
  let word := s.takeWhile (fun b => !isSpace b)
  if word = [] then none else some (word, s.dropWhile (fun b => !isSpace b))

/-! ## The paths of a client -/

structure PipePaths where
  req : CStr
  resp : CStr
  notif : CStr
  deriving DecidableEq

/-- A field stored in an array of `MAX_PIPE_PATH_LENGTH` bytes with its NUL; past that the behaviour is
    undefined. -/
def storePath (field : List Byte) : Option CStr :=
  if field.length < MAX_PIPE_PATH_LENGTH then some (CStr.ofBuffer (field ++ [0])) else none

/-- `sscanf(client_paths, "%d|%[^|]|%[^|]|%s", ...)`. When a directive fails, the arrays from there on
    hold nothing defined, as they are declared anew in each round of the loop. -/
def scanPaths (text : CStr) : Option PipePaths := do
  let (_, s) ← scanInt text.bytes
  let s ← scanChar BAR s
  let (req, s) ← scanField s
  let s ← scanChar BAR s
  let (resp, s) ← scanField s
  let s ← scanChar BAR s
  let (notif, _) ← scanWord s
  let req ← storePath req
  let resp ← storePath resp
  let notif ← storePath notif
  some ⟨req, resp, notif⟩

/-- What a manager opens a session on, from the slot it has copied:
    `strncpy(client_paths, BUFFER[BUFFER_READ_INDEX], ...)` and the scan. Of a slot without a NUL the copy
    has none either, and `sscanf` reads on behind `client_paths`, which is undefined. -/
def sessionPaths (slot : List Byte) : Option PipePaths :=
  let client_paths := strncpy slot SLOT_SIZE
  if 0 ∈ client_paths then scanPaths (CStr.ofBuffer client_paths) else none

/-- `BUFFER`, and the two loops at their start, with what the reads of the FIFO will return. -/
def registrationQueue (T : Type) (reads : List (List Byte)) :
    BoundedBuffer.State MAX_SESSION_COUNT T (List Byte) (List Byte) :=
  .init (fun _ => List.replicate SLOT_SIZE 0) reads

/-! ## What the directives take off a text -/

theorem scanInt_one (s : List Byte) : scanInt (49 :: BAR :: s) = some (1, BAR :: s) := by
  have hspace : isSpace 49 = false := by decide
  have hdigit : isDigit 49 = true := by decide
  have hbar : isDigit BAR = false := by decide
  simp [scanInt, skipSign, hspace, hdigit, hbar, digitsValue]

theorem skipSign_suffix (s : List Byte) : skipSign s <:+ s := by
  unfold skipSign
  split
  · exact List.tail_suffix s
  · exact List.suffix_refl s

/-- A number takes at least one byte off the text. -/
theorem scanInt_inv {s rest : List Byte} {v : Int} (h : scanInt s = some (v, rest)) :
    ∃ taken, s = taken ++ rest ∧ taken ≠ [] := by
  simp only [scanInt] at h
  split at h
  · exact absurd h (by simp)
  · rename_i hdigits
    rw [Option.some.injEq, Prod.mk.injEq] at h
    obtain ⟨sign, hsign⟩ := skipSign_suffix (s.dropWhile isSpace)
    refine ⟨s.takeWhile isSpace ++ (sign ++ (skipSign (s.dropWhile isSpace)).takeWhile isDigit), ?_,
      by simp [hdigits]⟩
    rw [← h.2, List.append_assoc, List.append_assoc, List.takeWhile_append_dropWhile, hsign,
      List.takeWhile_append_dropWhile]

theorem scanChar_eq_some_iff {c : Byte} {s rest : List Byte} :
    scanChar c s = some rest ↔ s = c :: rest := by
  unfold scanChar
  cases s with
  | nil => simp
  | cons b s =>
      by_cases hb : b = c
      · simp [hb]
      · simp [hb]

theorem scanField_append {field : List Byte} (hne : field ≠ []) (hbar : BAR ∉ field) (s : List Byte) :
    scanField (field ++ BAR :: s) = some (field, BAR :: s) := by
  have hall : ∀ b ∈ field, decide (b ≠ BAR) = true := by
    intro b hb
    simp only [ne_eq, decide_eq_true_eq]
    rintro rfl
    exact hbar hb
  simp only [scanField]
  rw [List.takeWhile_append_of_pos hall, List.dropWhile_append_of_pos hall]
  simp [hne]

theorem scanField_inv {s field rest : List Byte} (h : scanField s = some (field, rest)) :
    s = field ++ rest ∧ field ≠ [] ∧ BAR ∉ field := by
  simp only [scanField] at h
  split at h
  · exact absurd h (by simp)
  · rename_i hne
    rw [Option.some.injEq, Prod.mk.injEq] at h
    obtain ⟨rfl, rfl⟩ := h
    refine ⟨List.takeWhile_append_dropWhile.symm, hne, fun hbar => ?_⟩
    have := List.mem_takeWhile_imp hbar
    simp at this

theorem scanWord_all {word : List Byte} (hne : word ≠ []) (hspace : ∀ b ∈ word, isSpace b = false) :
    scanWord word = some (word, []) := by
  have hskip : word.dropWhile isSpace = word := by
    cases word with
    | nil => rfl
    | cons b word => rw [List.dropWhile_cons_of_neg (by simp [hspace b List.mem_cons_self])]
  have hall : ∀ b ∈ word, (!isSpace b) = true := fun b hb => by rw [hspace b hb]; rfl
  simp only [scanWord, hskip]
  rw [List.takeWhile_eq_self_iff.mpr hall, List.dropWhile_eq_nil_iff.mpr hall, if_neg hne]

theorem scanWord_inv {s word rest : List Byte} (h : scanWord s = some (word, rest)) :
    (∃ skipped, s = skipped ++ (word ++ rest)) ∧ word ≠ [] ∧ ∀ b ∈ word, isSpace b = false := by
  simp only [scanWord] at h
  split at h
  · exact absurd h (by simp)
  · rename_i hne
    rw [Option.some.injEq, Prod.mk.injEq] at h
    obtain ⟨rfl, rfl⟩ := h
    refine ⟨⟨s.takeWhile isSpace, ?_⟩, hne, fun b hb => ?_⟩
    · rw [List.takeWhile_append_dropWhile, List.takeWhile_append_dropWhile]
    · simpa using List.mem_takeWhile_imp hb

theorem storePath_eq_some_iff {field : List Byte} (hnul : (0 : Byte) ∉ field) {path : CStr} :
    storePath field = some path ↔ field.length < MAX_PIPE_PATH_LENGTH ∧ path.bytes = field := by
  have hstored : (CStr.ofBuffer (field ++ [0])).bytes = field := untilNul_append_nul hnul []
  unfold storePath
  split
  · rename_i hlt
    rw [Option.some.injEq]
    constructor
    · rintro rfl
      exact ⟨hlt, hstored⟩
    · rintro ⟨_, hpath⟩
      exact CStr.ext (hstored.trans hpath.symm)
  · rename_i hlt
    simp [hlt]

/-! ## The scan of a registration -/

/-- The text in front of a word: op code, request path and response path. -/
def scanHead (p : PipePaths) (word : List Byte) : List Byte :=
  49 :: BAR :: (p.req.bytes ++ BAR :: (p.resp.bytes ++ BAR :: word))

/-- Behind a proper head, the scan gives these paths when the word there is the notification path. -/
theorem scanPaths_head_iff {p : PipePaths} {text : CStr} {word : List Byte}
    (htext : text.bytes = scanHead p word)
    (hreq : p.req.bytes ≠ [] ∧ BAR ∉ p.req.bytes ∧ p.req.bytes.length < MAX_PIPE_PATH_LENGTH)
    (hresp : p.resp.bytes ≠ [] ∧ BAR ∉ p.resp.bytes ∧ p.resp.bytes.length < MAX_PIPE_PATH_LENGTH)
    (hword : word ≠ [] ∧ ∀ b ∈ word, isSpace b = false) :
    scanPaths text = some p ↔ word.length < MAX_PIPE_PATH_LENGTH ∧ word = p.notif.bytes := by
  have hchar : ∀ s : List Byte, scanChar BAR (BAR :: s) = some s :=
    fun s => scanChar_eq_some_iff.mpr rfl
  have hreqPath : storePath p.req.bytes = some p.req :=
    (storePath_eq_some_iff p.req.noNul).mpr ⟨hreq.2.2, rfl⟩
  have hrespPath : storePath p.resp.bytes = some p.resp :=
    (storePath_eq_some_iff p.resp.noNul).mpr ⟨hresp.2.2, rfl⟩
  have hnul : (0 : Byte) ∉ word := by
    intro h
    apply text.noNul
    rw [htext, scanHead]
    simp [h]
  have hscan : scanPaths text = (storePath word).bind (fun notif => some ⟨p.req, p.resp, notif⟩) := by
    unfold scanPaths
    rw [htext, scanHead, scanInt_one]
    simp only [Option.bind_eq_bind, Option.bind_some, hchar, scanField_append hreq.1 hreq.2.1,
      scanField_append hresp.1 hresp.2.1, scanWord_all hword.1 hword.2, hreqPath, hrespPath]
  rw [hscan, Option.bind_eq_some_iff]
  constructor
  · rintro ⟨notif, hnotif, hp⟩
    rw [storePath_eq_some_iff hnul] at hnotif
    rw [← Option.some.inj hp]
    exact ⟨hnotif.1, hnotif.2.symm⟩
  · rintro ⟨hlt, heq⟩
    exact ⟨p.notif, (storePath_eq_some_iff hnul).mpr ⟨hlt, heq.symm⟩, rfl⟩

/-- The paths of a successful scan, and how much of the text they take. -/
theorem scanPaths_inv {text : CStr} {p : PipePaths} (h : scanPaths text = some p) :
    (p.req.bytes ≠ [] ∧ BAR ∉ p.req.bytes) ∧ (p.resp.bytes ≠ [] ∧ BAR ∉ p.resp.bytes) ∧
    (p.notif.bytes ≠ [] ∧ ∀ b ∈ p.notif.bytes, isSpace b = false) ∧
    p.req.bytes.length + p.resp.bytes.length + p.notif.bytes.length + 4 ≤ text.bytes.length := by
  simp only [scanPaths, Option.bind_eq_bind, Option.bind_eq_some_iff, Prod.exists] at h
  obtain ⟨_, s₁, hint, s₂, hbar₁, req, s₃, hreq, s₄, hbar₂, resp, s₅, hresp, s₆, hbar₃, notif, s₇,
    hnotif, reqPath, hreqPath, respPath, hrespPath, notifPath, hnotifPath, hp⟩ := h
  obtain ⟨taken, htext, htaken⟩ := scanInt_inv hint
  obtain ⟨rfl, hreqNe, hreqBar⟩ := scanField_inv hreq
  obtain ⟨rfl, hrespNe, hrespBar⟩ := scanField_inv hresp
  obtain ⟨⟨skipped, rfl⟩, hnotifNe, hspace⟩ := scanWord_inv hnotif
  rw [scanChar_eq_some_iff] at hbar₁ hbar₂ hbar₃
  subst hbar₁ hbar₂ hbar₃
  have hnul := text.noNul
  rw [htext] at hnul
  simp only [List.mem_append, List.mem_cons, not_or] at hnul
  obtain ⟨_, _, hreqNul, _, hrespNul, _, _, hnotifNul, _⟩ := hnul
  rw [storePath_eq_some_iff hreqNul] at hreqPath
  rw [storePath_eq_some_iff hrespNul] at hrespPath
  rw [storePath_eq_some_iff hnotifNul] at hnotifPath
  rw [← Option.some.inj hp]
  simp only [hreqPath.2, hrespPath.2, hnotifPath.2, htext]
  refine ⟨⟨hreqNe, hreqBar⟩, ⟨hrespNe, hrespBar⟩, ⟨hnotifNe, hspace⟩, ?_⟩
  -- the op code, three bars and the paths are all in the text
  have hpos := List.length_pos_iff.mpr htaken
  simp only [List.length_append, List.length_cons]
  omega

/-- A slot of the right size is copied whole: the text is what is in front of its first NUL. -/
theorem sessionPaths_eq {slot : List Byte} (h : slot.length = SLOT_SIZE) (hnul : (0 : Byte) ∈ slot) :
    sessionPaths slot = scanPaths (CStr.ofBuffer slot) := by
  have hslot : slot.take SLOT_SIZE = slot := List.take_of_length_le (Nat.le_of_eq h)
  have hcopy : (0 : Byte) ∈ strncpy slot SLOT_SIZE :=
    (nul_mem_strncpy_iff slot SLOT_SIZE).mpr (Or.inl (hslot.symm ▸ hnul))
  simp only [sessionPaths]
  rw [if_pos hcopy]
  congr 1
  apply CStr.ext
  rw [ofBuffer_strncpy, hslot]
  rfl

/-- Without a NUL in the slot there are no paths. -/
theorem sessionPaths_noNul {slot : List Byte} (h : slot.length = SLOT_SIZE) (hnul : (0 : Byte) ∉ slot) :
    sessionPaths slot = none := by
  have hcopy : (0 : Byte) ∉ strncpy slot SLOT_SIZE := by
    rw [nul_mem_strncpy_iff, List.take_of_length_le (Nat.le_of_eq h)]
    simp [hnul, h]
  simp only [sessionPaths]
  rw [if_neg hcopy]

end Kvs.Server
