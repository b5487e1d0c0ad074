import Kvs.Server.Directory

/-!
# `Correctness.Directory` — what the worker threads find in `files`

The threads rely on `0 = current_index <= count <= MAX_WRITE_SIZE` and on a path in each row below
`count` (`Filled`). The loop over the entries keeps `Holds`, that `files` holds the paths accepted so far,
until an entry that looks like a job comes when all rows are taken: that one is formatted behind the array,
also when its path is too long to be accepted. And a directory that cannot be opened leaves the two
counters as `main` has declared them, without a value (`directory_iff`).
-/

namespace Kvs.Server

/-- The test of the loop. -/
def EntryName.looksLikeJob (entry : EntryName) : Bool := strstr entry.name.bytes (ascii ".job")

theorem entryPath_noNul (inputDir : CStr) (entry : EntryName) : (0 : Byte) ∉ entryPath inputDir entry := by
  intro h
  rcases List.mem_append.mp h with hdir | hname
  · exact inputDir.noNul hdir
  · rcases List.mem_cons.mp hname with hslash | hname
    · exact absurd hslash (by decide)
    · exact entry.name.noNul hname

/-- The path of an entry. -/
def entryFile (inputDir : CStr) (entry : EntryName) : CStr :=
  ⟨entryPath inputDir entry, entryPath_noNul inputDir entry⟩

/-- Looks like a job and has a path that fits. -/
def Accepted (inputDir : CStr) (entry : EntryName) : Prop :=
  entry.looksLikeJob = true ∧ (entryPath inputDir entry).length < MAX_JOB_FILE_NAME_SIZE

instance (inputDir : CStr) (entry : EntryName) : Decidable (Accepted inputDir entry) :=
  inferInstanceAs (Decidable (_ ∧ _))

/-- The paths to process, in the order of the directory. -/
def acceptedPaths (inputDir : CStr) (entries : List EntryName) : List CStr :=
  (entries.filter (fun entry => Accepted inputDir entry)).map (entryFile inputDir)

/-- What the worker threads rely on after `process_job_directory`, which has stored nothing outside
    `files`. -/
def Filled (inputDir : CStr) (dir : Directory) (d : JobFiles) : Prop :=
  ∃ d', processJobDirectory inputDir dir d = some d' ∧
    d'.currentIndex = 0 ∧ 0 ≤ d'.count ∧ d'.count ≤ MAX_WRITE_SIZE ∧
    (List.range d'.count.toNat).map d'.path = acceptedPaths inputDir (dir.getD [])

/-- An entry that looks like a job comes while a row is free for it. -/
def RoomFor (inputDir : CStr) (entries : List EntryName) : Prop :=
  ∀ before entry after, entries = before ++ entry :: after → entry.looksLikeJob = true →
    (acceptedPaths inputDir before).length < MAX_WRITE_SIZE

/-! ## One round -/

/-- `files` holds these paths, none of them handed out. -/
structure Holds (d : JobFiles) (paths : List CStr) : Prop where
  currentIndex : d.currentIndex = 0
  count : d.count = paths.length
  inside : paths.length ≤ MAX_WRITE_SIZE
  rows : (List.range paths.length).map d.path = paths

theorem acceptedPaths_cons (inputDir : CStr) (entry : EntryName) (entries : List EntryName) :
    acceptedPaths inputDir (entry :: entries) =
      acceptedPaths inputDir [entry] ++ acceptedPaths inputDir entries := by
  unfold acceptedPaths
  rw [← List.map_append, ← List.filter_append]
  rfl

/-- A text that fits is stored as a string, whatever was in the row. -/
theorem ofBuffer_snprintf {text : List Byte} {n : Nat} (htext : (0 : Byte) ∉ text) (hfits : text.length < n)
    (row : List Byte) : CStr.ofBuffer (overwrite row (snprintf n text)) = ⟨text, htext⟩ := by
  have hwhole : text.take (n - 1) = text := List.take_of_length_le (by omega)
  unfold overwrite snprintf
  rw [hwhole, List.append_assoc]
  exact CStr.ofBuffer_append_nul ⟨text, htext⟩ _

/-- The rows in front of the one that is stored stay. -/
theorem path_update_range (d : JobFiles) (n : Nat) (row : List Byte) :
    (List.range n).map { d with files := Function.update d.files n row }.path =
      (List.range n).map d.path := by
  apply List.map_congr_left
  intro i hi
  show CStr.ofBuffer (Function.update d.files n row i) = CStr.ofBuffer (d.files i)
  rw [Function.update_of_ne (Nat.ne_of_lt (List.mem_range.mp hi))]

theorem snprintfLength_fits {text : List Byte} (h : text.length < MAX_JOB_FILE_NAME_SIZE) :
    snprintfLength text = text.length := by
  have hint : (text.length : Int) < 256 := by exact_mod_cast h
  exact if_pos (hint.le.trans (by decide))

theorem snprintfLength_exceeds {text : List Byte} (h : MAX_JOB_FILE_NAME_SIZE ≤ text.length) :
    snprintfLength text < 0 ∨ snprintfLength text ≥ MAX_JOB_FILE_NAME_SIZE := by
  unfold snprintfLength
  split_ifs
  · right
    exact_mod_cast h
  · left
    decide

theorem readEntry_other {entry : EntryName} (h : entry.looksLikeJob = false) (inputDir : CStr)
    (d : JobFiles) : readEntry inputDir d entry = some d :=
  if_neg (Bool.not_eq_true _ ▸ h)

/-- With every row taken the entry is formatted behind the array. -/
theorem readEntry_full {entry : EntryName} {d : JobFiles} {paths : List CStr} (hd : Holds d paths)
    (hfull : MAX_WRITE_SIZE ≤ paths.length) (hjob : entry.looksLikeJob = true) (inputDir : CStr) :
    readEntry inputDir d entry = none := by
  have hcount := hd.count
  unfold EntryName.looksLikeJob at hjob
  unfold readEntry
  rw [if_pos hjob, if_neg (by omega)]

/-- With a row free the paths held grow by that of the entry, if it is accepted. -/
theorem readEntry_holds {entry : EntryName} {d : JobFiles} {paths : List CStr} (hd : Holds d paths)
    (hroom : entry.looksLikeJob = true → paths.length < MAX_WRITE_SIZE) (inputDir : CStr) :
    ∃ d', readEntry inputDir d entry = some d' ∧ Holds d' (paths ++ acceptedPaths inputDir [entry]) := by
  cases hjob : entry.looksLikeJob with
  | false =>
      refine ⟨d, readEntry_other hjob inputDir d, ?_⟩
      have hnone : acceptedPaths inputDir [entry] = [] := by simp [acceptedPaths, Accepted, hjob]
      rw [hnone, List.append_nil]
      exact hd
  | true =>
      have hlt := hroom hjob
      have hcount := hd.count
      have htoNat : d.count.toNat = paths.length := by omega
      have hstrstr : strstr entry.name.bytes (ascii ".job") = true := hjob
      unfold readEntry
      rw [if_pos hstrstr, if_pos (by omega), htoNat]
      by_cases hfits : (entryPath inputDir entry).length < MAX_JOB_FILE_NAME_SIZE
      · have hone : acceptedPaths inputDir [entry] = [entryFile inputDir entry] := by
          simp [acceptedPaths, Accepted, hjob, hfits]
        simp only [snprintfLength_fits hfits]
        rw [if_neg (by omega), hone]
        refine ⟨_, rfl, hd.currentIndex, ?_, ?_, ?_⟩
        · simp only [List.length_append, List.length_singleton]
          omega
        · simp only [List.length_append, List.length_singleton]
          omega
        · rw [List.length_append, List.length_singleton, List.range_succ, List.map_append]
          congr 1
          · exact (path_update_range d paths.length _).trans hd.rows
          · show [CStr.ofBuffer (Function.update d.files paths.length _ paths.length)] = _
            rw [Function.update_self, ofBuffer_snprintf (entryPath_noNul inputDir entry) hfits]
            rfl
      · -- the path is cut into the row, which stays free
        have hnone : acceptedPaths inputDir [entry] = [] := by
          simp [acceptedPaths, Accepted, hfits]
        simp only
        rw [if_pos (snprintfLength_exceeds (Nat.le_of_not_lt hfits)), hnone, List.append_nil]
        exact ⟨_, rfl, hd.currentIndex, hd.count, hd.inside, (path_update_range d _ _).trans hd.rows⟩

/-! ## The loop -/

theorem readEntries_holds {inputDir : CStr} {entries : List EntryName} {d : JobFiles} {paths : List CStr}
    (hd : Holds d paths)
    (hroom : ∀ before entry after, entries = before ++ entry :: after → entry.looksLikeJob = true →
      (paths ++ acceptedPaths inputDir before).length < MAX_WRITE_SIZE) :
    ∃ d', entries.foldlM (readEntry inputDir) d = some d' ∧
      Holds d' (paths ++ acceptedPaths inputDir entries) := by
  induction entries generalizing d paths with
  | nil => exact ⟨d, rfl, by simpa [acceptedPaths] using hd⟩
  | cons entry entries ih =>
      have hfirst : entry.looksLikeJob = true → paths.length < MAX_WRITE_SIZE := by
        intro hjob
        simpa [acceptedPaths] using hroom [] entry entries rfl hjob
      obtain ⟨d', hentry, hd'⟩ := readEntry_holds hd hfirst inputDir
      obtain ⟨d'', hrest, hd''⟩ := ih hd' (by
        intro before next after heq hjob
        rw [List.append_assoc, ← acceptedPaths_cons]
        exact hroom (entry :: before) next after (by rw [heq]; rfl) hjob)
      refine ⟨d'', ?_, ?_⟩
      · rw [List.foldlM_cons, hentry]
        exact hrest
      · rw [acceptedPaths_cons, ← List.append_assoc]
        exact hd''

/-- Where the loop has a result, each entry that looks like a job came while a row was free. -/
theorem readEntries_room {inputDir : CStr} {entries : List EntryName} {d d' : JobFiles}
    {paths : List CStr} (hd : Holds d paths)
    (h : entries.foldlM (readEntry inputDir) d = some d') {before : List EntryName} {entry : EntryName}
    {after : List EntryName} (heq : entries = before ++ entry :: after)
    (hjob : entry.looksLikeJob = true) :
    (paths ++ acceptedPaths inputDir before).length < MAX_WRITE_SIZE := by
  induction entries generalizing d paths before with
  | nil => exact absurd heq (by simp)
  | cons first entries ih =>
      have hfirst : first.looksLikeJob = true → paths.length < MAX_WRITE_SIZE := by
        intro hlooks
        by_contra hfull
        rw [List.foldlM_cons, readEntry_full hd (Nat.le_of_not_lt hfull) hlooks] at h
        exact absurd h (by simp)
      obtain ⟨d₁, hentry, hd₁⟩ := readEntry_holds hd hfirst inputDir
      cases before with
      | nil =>
          obtain ⟨rfl, -⟩ := List.cons.inj heq
          simpa [acceptedPaths] using hfirst hjob
      | cons _ before =>
          obtain ⟨rfl, hrest⟩ := List.cons.inj heq
          rw [List.foldlM_cons, hentry] at h
          have hlater := ih hd₁ h hrest
          rwa [List.append_assoc, ← acceptedPaths_cons] at hlater

theorem holds_start (d : JobFiles) : Holds { d with count := 0, currentIndex := 0 } [] :=
  ⟨rfl, rfl, Nat.zero_le _, rfl⟩

theorem Holds.filled {inputDir : CStr} {dir : Directory} {d d' : JobFiles}
    (hrun : processJobDirectory inputDir dir d = some d')
    (h : Holds d' (acceptedPaths inputDir (dir.getD []))) : Filled inputDir dir d := by
  have hcount := h.count
  have hinside := h.inside
  refine ⟨d', hrun, h.currentIndex, by omega, by omega, ?_⟩
  rw [hcount, Int.toNat_natCast]
  exact h.rows

/-- There is room for the jobs among as many entries as there are rows. -/
theorem roomFor_of_length {inputDir : CStr} {entries : List EntryName}
    (h : entries.length ≤ MAX_WRITE_SIZE) : RoomFor inputDir entries := by
  intro before entry after heq _
  have haccepted : (acceptedPaths inputDir before).length ≤ before.length := by
    unfold acceptedPaths
    rw [List.length_map]
    exact List.length_filter_le _ _
  have hlen := congrArg List.length heq
  rw [List.length_append, List.length_cons] at hlen
  omega

/-- **When the worker threads find what they rely on.** The array is filled, without a store outside
    it, exactly when the directory opens and each entry that looks like a job comes while a row is free
    for it, or when it does not open and the two counters happen to be zero before the call. -/
theorem directory_iff (inputDir : CStr) (dir : Directory) (d : JobFiles) :
    Filled inputDir dir d ↔
      match dir with
      | none => d.count = 0 ∧ d.currentIndex = 0
      | some entries => RoomFor inputDir entries := by
  cases dir with
  | none =>
      constructor
      · rintro ⟨d', hrun, hindex, hcount, -, hrows⟩
        obtain rfl := Option.some.inj hrun
        have hlen := congrArg List.length hrows
        simp only [List.length_map, List.length_range, acceptedPaths, Option.getD_none,
          List.filter_nil, List.length_nil] at hlen
        exact ⟨by omega, hindex⟩
      · rintro ⟨hcount, hindex⟩
        exact Holds.filled rfl ⟨hindex, hcount, Nat.zero_le _, rfl⟩
  | some entries =>
      constructor
      · rintro ⟨d', hrun, -⟩ before entry after heq hjob
        exact readEntries_room (holds_start d) hrun heq hjob
      · intro hroom
        obtain ⟨d', hrun, hd'⟩ := readEntries_holds (holds_start d) hroom
        exact Holds.filled hrun hd'

/-- **After a directory that cannot be opened** `count` is what the memory held. -/
theorem unopened_unfilled : ¬ Filled (CStr.ofBuffer (ascii "jobs")) none ⟨fun _ => [], 1, 0⟩ := by
  rintro ⟨d', hrun, -, -, -, hrows⟩
  obtain rfl := Option.some.inj hrun
  exact absurd (congrArg List.length hrows) (by simp [acceptedPaths])

end Kvs.Server
