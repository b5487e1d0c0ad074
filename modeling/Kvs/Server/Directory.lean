import Kvs.Server.Backup
import Kvs.Server.Parser
import Kvs.Base.Buffer

/-!
# `Server.Directory` — the job files of a directory, and the files written for them

`process_job_directory` fills `files` of `ThreadData` with the paths of the entries that look like jobs,
`thread_process_files` gives each of them an output file, `kvs_backup` names the backups. All three
format into buffers of `MAX_JOB_FILE_NAME_SIZE` bytes. The calls of exercise 3 are the same.

`main` declares its `ThreadData` without an initialiser: what `files`, `count` and `current_index` hold
before the call is whatever the memory held.
-/

namespace Kvs.Server

abbrev MAX_JOB_FILE_NAME_SIZE : Nat := 256

/-- `'/'` -/
abbrev SLASH : Byte := 47
/-- `'-'` -/
abbrev DASH : Byte := 45

/-- `entry->d_name`: a name as a directory may hold it. -/
structure EntryName where
  name : CStr
  nonempty : name.bytes ≠ []
  noSlash : SLASH ∉ name.bytes

/-- What `opendir` and the `readdir`s after it give: nothing, or the entries in their order. -/
abbrev Directory := Option (List EntryName)

/-- `files`, `count` and `current_index` of `ThreadData`. The array has the rows below
    `MAX_WRITE_SIZE`, each of `MAX_JOB_FILE_NAME_SIZE` bytes. -/
structure JobFiles where
  files : Nat → List Byte
  count : Int
  currentIndex : Int

/-- The string in a row of `files`. -/
def JobFiles.path (d : JobFiles) (i : Nat) : CStr := CStr.ofBuffer (d.files i)

/-- `strstr(s, lit) != NULL` -/
def strstr : List Byte → List Byte → Bool
  | [], lit => lit.isEmpty
  | b :: s, lit => lit.isPrefixOf (b :: s) || strstr s lit

/-- What `snprintf` returns for this text: its length, or an error where that is no `int`. -/
def snprintfLength (text : List Byte) : Int :=
  if (text.length : Int) ≤ INT_MAX then text.length else -1

/-- `"%s/%s"` of the directory and an entry. -/
def entryPath (inputDir : CStr) (entry : EntryName) : List Byte :=
  inputDir.bytes ++ SLASH :: entry.name.bytes

/-- One round of the loop; `none` where it stores outside `files`. A path that does not fit has been
    cut into the row all the same. -/
def readEntry (inputDir : CStr) (d : JobFiles) (entry : EntryName) : Option JobFiles :=
  if strstr entry.name.bytes (ascii ".job") then
    if 0 ≤ d.count ∧ d.count < MAX_WRITE_SIZE then
      let row := d.count.toNat
      let text := entryPath inputDir entry
      let files := Function.update d.files row
        (overwrite (d.files row) (snprintf MAX_JOB_FILE_NAME_SIZE text))
      let len := snprintfLength text
      if len < 0 ∨ len ≥ MAX_JOB_FILE_NAME_SIZE then some { d with files }
      else some { d with files, count := d.count + 1 }
    else none
  else some d

/-- `process_job_directory`; `none` where it stores outside `files`. -/
def processJobDirectory (inputDir : CStr) (dir : Directory) (d : JobFiles) : Option JobFiles :=
  match dir with
  | none => some d
  | some entries => entries.foldlM (readEntry inputDir) { d with count := 0, currentIndex := 0 }

/-! ## The files of a job -/

/-- `"%.*s"` with `strlen(s) - 4`, which for a shorter string is negative and then limits nothing. -/
def withoutExtension (s : CStr) : List Byte :=
  if s.bytes.length < 4 then s.bytes else s.bytes.take (s.bytes.length - 4)

/-- The name behind the last slash: `strrchr(input_file, '/') + 1`, of a path that has one. -/
def jobName (inputFile : CStr) : CStr :=
  CStr.ofBuffer (inputFile.bytes.reverse.takeWhile (· ≠ SLASH)).reverse

/-- `output_file` of `thread_process_files`. -/
def outputFile (inputFile : CStr) : CStr :=
  CStr.ofBuffer (snprintf MAX_JOB_FILE_NAME_SIZE (withoutExtension inputFile ++ ascii ".out"))

/-- `"%d"` -/
def formatInt (i : Int) : List Byte :=
  if i < 0 then DASH :: decimal i.natAbs else decimal i.natAbs

/-- `"%s/%.*s-%d.bck"` of the directory, the name of the job and the number of the backup. -/
def backupText (backup : Int) (outputDir jobName : CStr) : List Byte :=
  outputDir.bytes ++ SLASH :: (withoutExtension jobName ++ DASH :: (formatInt backup ++ ascii ".bck"))

/-- `backup_output_path` of `kvs_backup`. -/
def backupPath (backup : Int) (outputDir jobName : CStr) : CStr :=
  CStr.ofBuffer (snprintf MAX_JOB_FILE_NAME_SIZE (backupText backup outputDir jobName))

end Kvs.Server
