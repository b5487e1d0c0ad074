import Kvs.Correctness.Directory
import Kvs.Correctness.RoundTrip

/-!
# `Correctness.Paths` — no file of a job is a file of another

The outputs and the backups are meant to be files of their own (`FilesApart`). A name that has `.job` in
its middle is taken for a job too. A backup keeps the number in its name, and so a name of its own, when
at most the extension is cut from its path: up to the last digit of the number, all of the path is read
back off what is left (`backup_injective`). With ten digits in the greatest number, that is a path of the job
of at most 248 bytes (`paths_iff`).
-/

namespace Kvs.Server

/-- `.job` ends the name. -/
def EntryName.isJob (entry : EntryName) : Prop := ascii ".job" <:+ entry.name.bytes

/-- The paths in `files` up to `count`. -/
def JobFiles.jobs (d : JobFiles) : List CStr := (List.range d.count.toNat).map d.path

/-- A number of a backup: `total_backups` after it was incremented. -/
def IsBackupNumber (i : Int) : Prop := 1 ≤ i ∧ i ≤ INT_MAX

/-- The jobs of the directory are the names that end in `.job`, each once, and the outputs, the backups
    and the jobs are all different files. -/
def FilesApart (inputDir : CStr) (entries : List EntryName) (d : JobFiles) : Prop :=
  ∃ d', processJobDirectory inputDir (some entries) d = some d' ∧
    (∀ name, name ∈ d'.jobs.map jobName ↔ ∃ entry ∈ entries, entry.isJob ∧ entry.name = name) ∧
    d'.jobs.Nodup ∧
    Set.InjOn outputFile {f | f ∈ d'.jobs} ∧
    Set.InjOn (fun p : CStr × Int => backupPath p.2 inputDir (jobName p.1))
      {p | p.1 ∈ d'.jobs ∧ IsBackupNumber p.2} ∧
    (∀ f ∈ d'.jobs, ∀ g ∈ d'.jobs, ∀ i, IsBackupNumber i →
      outputFile f ≠ backupPath i inputDir (jobName g)) ∧
    (∀ f ∈ d'.jobs, outputFile f ∉ d'.jobs) ∧
    (∀ f ∈ d'.jobs, ∀ i, IsBackupNumber i → backupPath i inputDir (jobName f) ∉ d'.jobs)

/-- Room for the jobs, no name with `.job` elsewhere, and paths that leave room for any number. -/
structure Plain (inputDir : CStr) (entries : List EntryName) : Prop where
  room : RoomFor inputDir entries
  suffix : ∀ entry ∈ entries, Accepted inputDir entry → entry.isJob
  short : ∀ entry ∈ entries, entry.isJob → (entryPath inputDir entry).length ≤ 248

/-! ## Texts -/

/-- What is left of a text that need not fit. -/
theorem ofBuffer_snprintf_bytes {text : List Byte} (h : (0 : Byte) ∉ text) (n : Nat) :
    (CStr.ofBuffer (snprintf n text)).bytes = text.take (n - 1) := by
  have hcut : (0 : Byte) ∉ text.take (n - 1) := fun hmem => h (List.mem_of_mem_take hmem)
  exact congrArg CStr.bytes (CStr.ofBuffer_append_nul ⟨_, hcut⟩ [])

/-- `strstr` finds a string that is a part of the other. -/
theorem strstr_iff (s lit : List Byte) : strstr s lit = true ↔ lit <:+: s := by
  induction s with
  | nil => simp [strstr]
  | cons b s ih => rw [strstr, Bool.or_eq_true, ih, List.isPrefixOf_iff_prefix, List.infix_cons_iff]

theorem rdropWhile_append {p : Byte → Bool} {r : List Byte} (hr : ∀ b ∈ r, p b = true) (s : List Byte) :
    (s ++ r).rdropWhile p = s.rdropWhile p := by
  induction r using List.reverseRecOn with
  | nil => rw [List.append_nil]
  | append_singleton r b ih =>
      have hb : p b = true := hr b (by simp)
      rw [← List.append_assoc, List.rdropWhile_concat_pos p _ b hb]
      exact ih (fun c hc => hr c (List.mem_append_left _ hc))

/-- Two texts that each go on, behind a byte that is not of a kind, with bytes of that kind. -/
theorem append_kind_inj {p : Byte → Bool} {x y r s : List Byte} {a b : Byte}
    (h : x ++ [a] ++ r = y ++ [b] ++ s) (ha : p a = false) (hb : p b = false)
    (hr : ∀ c ∈ r, p c = true) (hs : ∀ c ∈ s, p c = true) : x ++ [a] = y ++ [b] ∧ r = s := by
  have hcut := congrArg (List.rdropWhile p) h
  rw [rdropWhile_append hr, rdropWhile_append hs, List.rdropWhile_concat_neg p x a (by simp [ha]),
    List.rdropWhile_concat_neg p y b (by simp [hb])] at hcut
  rw [hcut] at h
  exact ⟨hcut, List.append_cancel_left h⟩

/-! ## The names -/

theorem EntryName.looksLikeJob_of_isJob {entry : EntryName} (h : entry.isJob) :
    entry.looksLikeJob = true :=
  (strstr_iff _ _).mpr h.isInfix

/-- The name read back off the path. -/
theorem jobName_entryFile (inputDir : CStr) (entry : EntryName) :
    jobName (entryFile inputDir entry) = entry.name := by
  have hbehind : (entryPath inputDir entry).reverse.takeWhile (fun b => decide (b ≠ SLASH))
      = entry.name.bytes.reverse := by
    unfold entryPath
    rw [List.reverse_append, List.reverse_cons, List.append_assoc, List.takeWhile_append_of_pos]
    · simp
    · intro b hb
      have hne : b ≠ SLASH := fun h => entry.noSlash (h ▸ List.mem_reverse.mp hb)
      simpa using hne
  apply CStr.ext
  show untilNul ((entryPath inputDir entry).reverse.takeWhile _).reverse = _
  rw [hbehind, List.reverse_reverse, untilNul_of_noNul entry.name.noNul]

theorem entryFile_name {inputDir : CStr} {entry other : EntryName}
    (h : entryFile inputDir entry = entryFile inputDir other) : entry.name = other.name := by
  rw [← jobName_entryFile inputDir entry, h, jobName_entryFile]

theorem withoutExtension_job {s : CStr} {stem : List Byte} (h : s.bytes = stem ++ ascii ".job") :
    withoutExtension s = stem := by
  have hext : (ascii ".job").length = 4 := rfl
  unfold withoutExtension
  rw [h, List.length_append, hext, if_neg (by omega), Nat.add_sub_cancel]
  exact List.take_left

theorem entryFile_of_stem {inputDir : CStr} {entry : EntryName} {stem : List Byte}
    (hstem : entry.name.bytes = stem ++ ascii ".job") :
    (entryFile inputDir entry).bytes = inputDir.bytes ++ SLASH :: stem ++ ascii ".job" := by
  show entryPath inputDir entry = _
  rw [entryPath, hstem]
  simp

theorem fits_of_short {n : Nat} (h : n ≤ 248) : n < MAX_JOB_FILE_NAME_SIZE :=
  Nat.lt_of_le_of_lt h (by decide)

theorem outputFile_entryFile {inputDir : CStr} {entry : EntryName} {stem : List Byte}
    (hstem : entry.name.bytes = stem ++ ascii ".job")
    (hfits : (entryPath inputDir entry).length < MAX_JOB_FILE_NAME_SIZE) :
    (outputFile (entryFile inputDir entry)).bytes = inputDir.bytes ++ SLASH :: (stem ++ ascii ".out") := by
  have hpath := @entryFile_of_stem inputDir entry stem hstem
  have hnul : (0 : Byte) ∉ inputDir.bytes ++ SLASH :: stem ++ ascii ".out" := by
    have hpathNul := (entryFile inputDir entry).noNul
    rw [hpath] at hpathNul
    rw [List.mem_append, not_or] at hpathNul ⊢
    exact ⟨hpathNul.1, by decide⟩
  have hlen : (inputDir.bytes ++ SLASH :: stem ++ ascii ".out").length < MAX_JOB_FILE_NAME_SIZE := by
    have hsame : (entryPath inputDir entry).length = _ := congrArg List.length hpath
    rw [List.length_append] at hsame ⊢
    exact hsame ▸ hfits
  unfold outputFile
  rw [withoutExtension_job hpath, ofBuffer_snprintf_bytes hnul, List.take_of_length_le (by omega)]
  simp

/-! ## The backups -/

theorem decimal_length {n : Nat} (h : n ≤ 2147483647) : (decimal n).length ≤ 10 := by
  unfold decimal
  split
  · decide
  · rw [List.length_map, List.length_reverse]
    exact (Nat.digits_length_le_iff (by decide) n).mpr (by omega)

theorem decimal_injective {m n : Nat} (h : decimal m = decimal n) : m = n := by
  rw [← digitsValue_decimal m, h, digitsValue_decimal]

/-- A number ends in a digit. -/
theorem decimal_concat (n : Nat) :
    ∃ ds b, decimal n = ds ++ [b] ∧ isDigit b = true := by
  have hne := decimal_ne_nil n
  have hlast := isDigit_decimal n _ (List.getLast_mem hne)
  exact ⟨_, _, (List.dropLast_append_getLast hne).symm, hlast⟩

/-- What stands in front of the extension of a backup. -/
def backupBody (inputDir : CStr) (stem : List Byte) (n : Nat) : List Byte :=
  inputDir.bytes ++ SLASH :: stem ++ [DASH] ++ decimal n

theorem backupPath_bytes (inputDir : CStr) {name : CStr} {stem : List Byte}
    (hstem : name.bytes = stem ++ ascii ".job") {i : Int} (hi : IsBackupNumber i) :
    (backupPath i inputDir name).bytes = (backupBody inputDir stem i.natAbs ++ ascii ".bck").take 255 := by
  have htext : backupText i inputDir name = backupBody inputDir stem i.natAbs ++ ascii ".bck" := by
    have hpos : ¬ i < 0 := by
      have := hi.1
      omega
    rw [backupText, withoutExtension_job hstem, formatInt, if_neg hpos, backupBody]
    simp
  have hnul : (0 : Byte) ∉ backupBody inputDir stem i.natAbs ++ ascii ".bck" := by
    have hname := name.noNul
    rw [hstem, List.mem_append, not_or] at hname
    have hdigits : (0 : Byte) ∉ decimal i.natAbs := fun h =>
      absurd (isDigit_decimal _ _ h) (by decide)
    simp only [backupBody, List.mem_append, List.mem_cons, List.not_mem_nil, or_false, not_or]
    exact ⟨⟨⟨⟨inputDir.noNul, by decide, hname.1⟩, by decide⟩, hdigits⟩, by decide⟩
  unfold backupPath
  rw [htext, ofBuffer_snprintf_bytes hnul]
  rfl

/-- Of a path that leaves room for the number only the extension is cut. -/
theorem backupPath_kept {inputDir : CStr} {entry : EntryName} {stem : List Byte}
    (hstem : entry.name.bytes = stem ++ ascii ".job")
    (hshort : (entryPath inputDir entry).length ≤ 248) {i : Int} (hi : IsBackupNumber i) :
    ∃ r, (backupPath i inputDir entry.name).bytes = backupBody inputDir stem i.natAbs ++ r ∧
      ∀ b ∈ r, b ∈ ascii ".bck" := by
  have hdigits : (decimal i.natAbs).length ≤ 10 := by
    apply decimal_length
    have hmax : i ≤ 2147483647 := hi.2
    have hmin := hi.1
    omega
  have hbody : (backupBody inputDir stem i.natAbs).length ≤ 255 := by
    have hext : (ascii ".job").length = 4 := rfl
    rw [entryPath, hstem] at hshort
    simp only [backupBody, List.length_append, List.length_cons, List.length_nil] at hshort ⊢
    omega
  refine ⟨(ascii ".bck").take (255 - (backupBody inputDir stem i.natAbs).length), ?_, ?_⟩
  · rw [backupPath_bytes inputDir hstem hi, List.take_append, List.take_of_length_le hbody]
  · intro b hb
    exact List.mem_of_mem_take hb

/-- **The job and the number** are read back off what is left of the path. -/
theorem backup_injective {inputDir : CStr} {stem stem' r r' : List Byte} {n n' : Nat}
    (h : backupBody inputDir stem n ++ r = backupBody inputDir stem' n' ++ r')
    (hr : ∀ b ∈ r, b ∈ ascii ".bck") (hr' : ∀ b ∈ r', b ∈ ascii ".bck") : stem = stem' ∧ n = n' := by
  have hnoDigit : ∀ b ∈ ascii ".bck", (!isDigit b) = true := by decide +kernel
  obtain ⟨ds, d, hds, hd⟩ := decimal_concat n
  obtain ⟨ds', d', hds', hd'⟩ := decimal_concat n'
  -- back to the last digit
  have hbody : backupBody inputDir stem n = backupBody inputDir stem' n' := by
    unfold backupBody at h ⊢
    rw [hds, hds', ← List.append_assoc, ← List.append_assoc] at h ⊢
    exact (append_kind_inj h (by simp [hd]) (by simp [hd']) (fun b hb => hnoDigit b (hr b hb))
      (fun b hb => hnoDigit b (hr' b hb))).1
  -- and over the number to the dash
  have hdash : isDigit DASH = false := by decide
  obtain ⟨hfront, hnumber⟩ := append_kind_inj hbody hdash hdash (isDigit_decimal n) (isDigit_decimal n')
  have hstem := List.append_cancel_left (List.append_cancel_right hfront)
  exact ⟨(List.cons.inj hstem).2, decimal_injective hnumber⟩

theorem backupBody_last {inputDir : CStr} {stem x : List Byte} {n : Nat} {b : Byte}
    (h : backupBody inputDir stem n = x ++ [b]) : isDigit b = true := by
  obtain ⟨ds, d, hds, hd⟩ := decimal_concat n
  rw [backupBody, hds, ← List.append_assoc] at h
  obtain ⟨rfl, -⟩ := List.cons.inj (List.append_inj' h rfl).2
  exact hd

/-- The last byte of what is left of a backup path. -/
theorem backup_last {inputDir : CStr} {stem r x : List Byte} {n : Nat} {b : Byte}
    (h : backupBody inputDir stem n ++ r = x ++ [b]) (hr : ∀ b ∈ r, b ∈ ascii ".bck") :
    isDigit b = true ∨ b ∈ ascii ".bck" := by
  cases r using List.reverseRecOn with
  | nil =>
      rw [List.append_nil] at h
      exact Or.inl (backupBody_last h)
  | append_singleton r c =>
      rw [← List.append_assoc] at h
      obtain ⟨rfl, -⟩ := List.cons.inj (List.append_inj' h rfl).2
      exact Or.inr (hr c (by simp))

/-- No backup path ends as a job does. -/
theorem backup_not_job {inputDir : CStr} {stem r x : List Byte} {n : Nat}
    (h : backupBody inputDir stem n ++ r = x ++ ascii ".job") (hr : ∀ b ∈ r, b ∈ ascii ".bck") :
    False := by
  have hends : x ++ ascii ".job" = x ++ ascii ".jo" ++ [98] := by
    rw [List.append_assoc]
    rfl
  rw [hends] at h
  cases r using List.reverseRecOn with
  | nil =>
      rw [List.append_nil] at h
      exact absurd (backupBody_last h) (by decide)
  | append_singleton r c =>
      -- a `b` of the extension, and in front of it no `o`
      rw [← List.append_assoc] at h
      have hfront := (List.append_inj' h rfl).1
      have hends' : x ++ ascii ".jo" = x ++ ascii ".j" ++ [111] := by
        rw [List.append_assoc]
        rfl
      rw [hends'] at hfront
      have hlast := backup_last hfront (fun b hb => hr b (List.mem_append_left _ hb))
      exact absurd hlast (by decide)

/-- With a longer path two numbers that differ in their last digit give one backup. -/
theorem backupPath_collides {inputDir : CStr} {entry : EntryName} (hjob : entry.isJob)
    (hlong : 248 < (entryPath inputDir entry).length) :
    backupPath 1000000000 inputDir entry.name = backupPath 1000000001 inputDir entry.name := by
  obtain ⟨stem, hstem⟩ := hjob
  have hext : (ascii ".job").length = 4 := rfl
  have hnine : (ascii "100000000").length = 9 := rfl
  have hfirst : decimal (1000000000 : Int).natAbs = ascii "100000000" ++ ascii "0" := by decide +kernel
  have hnext : decimal (1000000001 : Int).natAbs = ascii "100000000" ++ ascii "1" := by decide +kernel
  have hcommon : 255 ≤ (inputDir.bytes ++ SLASH :: stem ++ [DASH] ++ ascii "100000000").length := by
    rw [entryPath, ← hstem] at hlong
    simp only [List.length_append, List.length_cons, List.length_nil] at hlong ⊢
    omega
  apply CStr.ext
  rw [backupPath_bytes inputDir hstem.symm ⟨by decide, by decide⟩,
    backupPath_bytes inputDir hstem.symm ⟨by decide, by decide⟩]
  unfold backupBody
  rw [hfirst, hnext, ← List.append_assoc, ← List.append_assoc, List.append_assoc _ (ascii "0"),
    List.append_assoc _ (ascii "1"), List.take_append_of_le_length hcommon,
    List.take_append_of_le_length hcommon]

/-! ## The directory -/

theorem processed_jobs {inputDir : CStr} {entries : List EntryName} {d d' : JobFiles}
    (h : processJobDirectory inputDir (some entries) d = some d') :
    RoomFor inputDir entries ∧ d'.jobs = acceptedPaths inputDir entries := by
  have hroom : RoomFor inputDir entries := by
    intro before entry after heq hjob
    exact readEntries_room (holds_start d) h heq hjob
  obtain ⟨d'', hrun, hd⟩ := readEntries_holds (holds_start d) hroom
  obtain rfl := Option.some.inj (hrun.symm.trans h)
  refine ⟨hroom, ?_⟩
  unfold JobFiles.jobs
  rw [hd.count, Int.toNat_natCast]
  exact hd.rows

theorem mem_acceptedPaths {inputDir : CStr} {entries : List EntryName} {f : CStr} :
    f ∈ acceptedPaths inputDir entries ↔
      ∃ entry ∈ entries, Accepted inputDir entry ∧ entryFile inputDir entry = f := by
  simp [acceptedPaths, and_assoc]

theorem mem_map_jobName {inputDir : CStr} {entries : List EntryName} {name : CStr} :
    name ∈ (acceptedPaths inputDir entries).map jobName ↔
      ∃ entry ∈ entries, Accepted inputDir entry ∧ entry.name = name := by
  rw [List.mem_map]
  constructor
  · rintro ⟨f, hf, rfl⟩
    obtain ⟨entry, hentry, haccepted, rfl⟩ := mem_acceptedPaths.mp hf
    exact ⟨entry, hentry, haccepted, (jobName_entryFile inputDir entry).symm⟩
  · rintro ⟨entry, hentry, haccepted, rfl⟩
    exact ⟨_, mem_acceptedPaths.mpr ⟨entry, hentry, haccepted, rfl⟩, jobName_entryFile inputDir entry⟩

theorem nodup_acceptedPaths {entries : List EntryName} (h : (entries.map EntryName.name).Nodup)
    (inputDir : CStr) : (acceptedPaths inputDir entries).Nodup := by
  have hentries : entries.Pairwise (fun entry other => entry.name ≠ other.name) := List.pairwise_map.mp h
  unfold acceptedPaths
  rw [List.Nodup, List.pairwise_map]
  refine (hentries.filter _).imp ?_
  intro entry other hne hsame
  exact hne (entryFile_name hsame)

theorem entryFile_eq_of_name {inputDir : CStr} {entry other : EntryName} (h : entry.name = other.name) :
    entryFile inputDir entry = entryFile inputDir other := by
  apply CStr.ext
  show entryPath inputDir entry = entryPath inputDir other
  rw [entryPath, entryPath, h]

/-- A job of such a directory: its stem, and a path that is short enough. -/
theorem Plain.job {inputDir : CStr} {entries : List EntryName} (h : Plain inputDir entries) {f : CStr}
    (hf : f ∈ acceptedPaths inputDir entries) :
    ∃ entry stem, entry.name.bytes = stem ++ ascii ".job" ∧ (entryPath inputDir entry).length ≤ 248 ∧
      f = entryFile inputDir entry := by
  obtain ⟨entry, hentry, haccepted, rfl⟩ := mem_acceptedPaths.mp hf
  have hjob := h.suffix entry hentry haccepted
  have hshort := h.short entry hentry hjob
  obtain ⟨stem, hstem⟩ := hjob
  exact ⟨entry, stem, hstem.symm, hshort, rfl⟩

theorem entryFile_eq_of_stem {inputDir : CStr} {entry other : EntryName} {stem : List Byte}
    (h : entry.name.bytes = stem ++ ascii ".job") (h' : other.name.bytes = stem ++ ascii ".job") :
    entryFile inputDir entry = entryFile inputDir other :=
  CStr.ext ((entryFile_of_stem h).trans (entryFile_of_stem h').symm)

theorem Plain.outputs_injective {inputDir : CStr} {entries : List EntryName}
    (h : Plain inputDir entries) : Set.InjOn outputFile {f | f ∈ acceptedPaths inputDir entries} := by
  intro f hf g hg hsame
  obtain ⟨entry, stem, hstem, hshort, rfl⟩ := h.job hf
  obtain ⟨other, stem', hstem', hshort', rfl⟩ := h.job hg
  have hbytes := congrArg CStr.bytes hsame
  rw [outputFile_entryFile hstem (fits_of_short hshort),
    outputFile_entryFile hstem' (fits_of_short hshort')] at hbytes
  obtain ⟨-, hstems⟩ := List.cons.inj (List.append_cancel_left hbytes)
  obtain rfl := List.append_cancel_right hstems
  exact entryFile_eq_of_stem hstem hstem'

theorem Plain.backups_injective {inputDir : CStr} {entries : List EntryName}
    (h : Plain inputDir entries) :
    Set.InjOn (fun p : CStr × Int => backupPath p.2 inputDir (jobName p.1))
      {p | p.1 ∈ acceptedPaths inputDir entries ∧ IsBackupNumber p.2} := by
  rintro ⟨f, i⟩ ⟨hf, hi⟩ ⟨g, j⟩ ⟨hg, hj⟩ hsame
  obtain ⟨entry, stem, hstem, hshort, rfl⟩ := h.job hf
  obtain ⟨other, stem', hstem', hshort', rfl⟩ := h.job hg
  have hbytes := congrArg CStr.bytes hsame
  simp only [jobName_entryFile] at hbytes
  obtain ⟨r, hkept, hr⟩ := backupPath_kept hstem hshort hi
  obtain ⟨r', hkept', hr'⟩ := backupPath_kept hstem' hshort' hj
  rw [hkept, hkept'] at hbytes
  obtain ⟨rfl, hnumber⟩ := backup_injective hbytes hr hr'
  have hij : i = j := by
    have hipos := hi.1
    have hjpos := hj.1
    omega
  rw [entryFile_eq_of_stem hstem hstem', hij]

theorem Plain.output_ne_backup {inputDir : CStr} {entries : List EntryName} (h : Plain inputDir entries)
    {f g : CStr} (hf : f ∈ acceptedPaths inputDir entries) (hg : g ∈ acceptedPaths inputDir entries)
    {i : Int} (hi : IsBackupNumber i) : outputFile f ≠ backupPath i inputDir (jobName g) := by
  intro hsame
  obtain ⟨entry, stem, hstem, hshort, rfl⟩ := h.job hf
  obtain ⟨other, stem', hstem', hshort', rfl⟩ := h.job hg
  have hbytes := congrArg CStr.bytes hsame
  obtain ⟨r, hkept, hr⟩ := backupPath_kept hstem' hshort' hi
  rw [jobName_entryFile, hkept, outputFile_entryFile hstem (fits_of_short hshort)] at hbytes
  -- the output ends in a `t`
  have hends : inputDir.bytes ++ SLASH :: (stem ++ ascii ".out")
      = inputDir.bytes ++ SLASH :: (stem ++ ascii ".ou") ++ [116] := by
    simp [ascii]
  exact absurd (backup_last (hbytes.symm.trans hends) hr) (by decide)

theorem Plain.output_not_job {inputDir : CStr} {entries : List EntryName} (h : Plain inputDir entries)
    {f : CStr} (hf : f ∈ acceptedPaths inputDir entries) : outputFile f ∉ acceptedPaths inputDir entries := by
  intro hmem
  obtain ⟨entry, stem, hstem, hshort, rfl⟩ := h.job hf
  obtain ⟨other, stem', hstem', -, hsame⟩ := h.job hmem
  have hout : (ascii ".out").length = 4 := rfl
  have hjob : (ascii ".job").length = 4 := rfl
  have hbytes := congrArg CStr.bytes hsame
  rw [outputFile_entryFile hstem (fits_of_short hshort), entryFile_of_stem hstem', ← List.cons_append,
    ← List.append_assoc] at hbytes
  exact absurd (List.append_inj' hbytes (hout.trans hjob.symm)).2 (by decide)

theorem Plain.backup_not_job {inputDir : CStr} {entries : List EntryName} (h : Plain inputDir entries)
    {f : CStr} (hf : f ∈ acceptedPaths inputDir entries) {i : Int} (hi : IsBackupNumber i) :
    backupPath i inputDir (jobName f) ∉ acceptedPaths inputDir entries := by
  intro hmem
  obtain ⟨entry, stem, hstem, hshort, rfl⟩ := h.job hf
  obtain ⟨other, stem', hstem', -, hsame⟩ := h.job hmem
  have hbytes := congrArg CStr.bytes hsame
  obtain ⟨r, hkept, hr⟩ := backupPath_kept hstem hshort hi
  rw [jobName_entryFile, hkept, entryFile_of_stem hstem'] at hbytes
  exact Kvs.Server.backup_not_job hbytes hr

/-- The jobs of such a directory are its `.job` files. -/
theorem Plain.names {inputDir : CStr} {entries : List EntryName} (h : Plain inputDir entries)
    (name : CStr) :
    name ∈ (acceptedPaths inputDir entries).map jobName ↔
      ∃ entry ∈ entries, entry.isJob ∧ entry.name = name := by
  rw [mem_map_jobName]
  constructor
  · rintro ⟨entry, hentry, haccepted, rfl⟩
    exact ⟨entry, hentry, h.suffix entry hentry haccepted, rfl⟩
  · rintro ⟨entry, hentry, hjob, rfl⟩
    have hshort := h.short entry hentry hjob
    exact ⟨entry, hentry, ⟨EntryName.looksLikeJob_of_isJob hjob, fits_of_short hshort⟩, rfl⟩

/-- The jobs that are processed have the same names as the `.job` files, so each of these fits. -/
theorem accepted_of_names {inputDir : CStr} {entries : List EntryName}
    (hnames : ∀ name, name ∈ (acceptedPaths inputDir entries).map jobName ↔
      ∃ entry ∈ entries, entry.isJob ∧ entry.name = name) {entry : EntryName} (hentry : entry ∈ entries) :
    (Accepted inputDir entry → entry.isJob) ∧
      (entry.isJob → entryFile inputDir entry ∈ acceptedPaths inputDir entries) := by
  constructor
  · intro haccepted
    have hmem := mem_map_jobName.mpr ⟨entry, hentry, haccepted, rfl⟩
    obtain ⟨other, -, hjob, hname⟩ := (hnames entry.name).mp hmem
    rwa [EntryName.isJob, hname] at hjob
  · intro hjob
    have hmem := (hnames entry.name).mpr ⟨entry, hentry, hjob, rfl⟩
    obtain ⟨other, hother, haccepted, hname⟩ := mem_map_jobName.mp hmem
    exact mem_acceptedPaths.mpr ⟨other, hother, haccepted, entryFile_eq_of_name hname⟩

/-- **When the files of the jobs are files of their own.** Whatever distinct names a directory holds, the
    jobs are its `.job` files and no output or backup is another's, or a job, exactly when there is room
    for the jobs, `.job` stands at the end of the names only, and no path of a job exceeds 248 bytes. -/
theorem paths_iff (inputDir : CStr) (entries : List EntryName) (d : JobFiles)
    (hdistinct : (entries.map EntryName.name).Nodup) :
    FilesApart inputDir entries d ↔ Plain inputDir entries := by
  constructor
  · rintro ⟨d', hrun, hnames, -, -, hbackups, -⟩
    obtain ⟨hroom, hjobs⟩ := processed_jobs hrun
    rw [hjobs] at hnames hbackups
    refine ⟨hroom, fun entry hentry => (accepted_of_names hnames hentry).1, ?_⟩
    intro entry hentry hjob
    by_contra hlong
    have hmem := (accepted_of_names hnames hentry).2 hjob
    have hcollides := backupPath_collides hjob (Nat.lt_of_not_le hlong)
    rw [← jobName_entryFile inputDir entry] at hcollides
    have hfirst : IsBackupNumber 1000000000 := ⟨by decide, by decide⟩
    have hnext : IsBackupNumber 1000000001 := ⟨by decide, by decide⟩
    have hsame : (entryFile inputDir entry, (1000000000 : Int)) = (entryFile inputDir entry, 1000000001) :=
      hbackups ⟨hmem, hfirst⟩ ⟨hmem, hnext⟩ hcollides
    exact absurd (Prod.mk.inj hsame).2 (by decide)
  · intro hplain
    obtain ⟨d', hrun, -⟩ := readEntries_holds (holds_start d) hplain.room
    refine ⟨d', hrun, ?_⟩
    rw [(processed_jobs hrun).2]
    refine ⟨hplain.names, nodup_acceptedPaths hdistinct inputDir, hplain.outputs_injective,
      hplain.backups_injective, ?_, ?_, ?_⟩
    · intro f hf g hg i hi
      exact hplain.output_ne_backup hf hg hi
    · intro f hf
      exact hplain.output_not_job hf
    · intro f hf i hi
      exact hplain.backup_not_job hf hi

/-- A name without a slash. -/
def entryNamed (name : String) (hnonempty : (CStr.ofBuffer (ascii name)).bytes ≠ [])
    (hslash : SLASH ∉ (CStr.ofBuffer (ascii name)).bytes) : EntryName :=
  ⟨CStr.ofBuffer (ascii name), hnonempty, hslash⟩

def twoJobs : List EntryName :=
  [entryNamed "a.job" (by decide) (by decide), entryNamed "b.job" (by decide) (by decide)]

theorem paths_twoJobs :
    FilesApart (CStr.ofBuffer (ascii "jobs")) twoJobs ⟨fun _ => [], 0, 0⟩ := by
  refine (paths_iff _ twoJobs _ (by decide)).mpr ⟨roomFor_of_length (by decide), ?_, ?_⟩
  · intro entry hentry _
    fin_cases hentry
    · exact ⟨ascii "a", rfl⟩
    · exact ⟨ascii "b", rfl⟩
  · intro entry hentry _
    fin_cases hentry
    · decide
    · decide

/-- **A name with `.job` in its middle** is processed as a job. -/
theorem middle_notApart : ¬ FilesApart (CStr.ofBuffer (ascii "jobs"))
    [entryNamed "a.job.txt" (by decide) (by decide)] ⟨fun _ => [], 0, 0⟩ := by
  rintro ⟨d', hrun, hnames, -⟩
  rw [(processed_jobs hrun).2] at hnames
  have hjob : ascii ".job" <:+ ascii "a.job.txt" :=
    (accepted_of_names hnames List.mem_cons_self).1 ⟨by decide, by decide⟩
  exact absurd hjob (by decide)

end Kvs.Server
