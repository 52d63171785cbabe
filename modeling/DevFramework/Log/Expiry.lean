import DevFramework.Foundations.OrderedMap
import DevFramework.Platform
import Mathlib.Data.List.Infix

/-! # Expired log files (utility/log/Log.cpp)

`i_check_expired` collects the files of the folder whose name contains the name of the log, keys
them by their creation time in seconds and deletes the first of them until as many are left as are
to be kept. A folder is its list of files in the order in which the directory iterator gives them;
attributes can be read and deletions succeed.
-/
namespace DevFramework.Log
open OrderedMap
set_option autoImplicit false
set_option maxHeartbeats 250000

abbrev Text := List Char

/-! ## Files -/

/-- A `FILETIME` of the file system: its bit 63 is clear. -/
structure FileTime where
  low : BitVec 32
  high : BitVec 32
  valid : high.toNat < 2 ^ 31
  deriving DecidableEq

namespace FileTime

/-- The number of 100-nanosecond intervals since 1601. -/
def ticks (ft : FileTime) : ℕ := ft.high.toNat * 2 ^ 32 + ft.low.toNat

/-- `i_file_time_to_time_t`: the subtraction is one of `ULONGLONG`s and the division one of
`LONGLONG`s. -/
def toTimeT (ft : FileTime) : ℤ :=
  (BitVec.ofNat 64 ft.ticks - 116444736000000000#64).toInt.tdiv 10000000

theorem ticks_lt (ft : FileTime) : ft.ticks < 2 ^ 63 := by
  have hhigh := ft.valid
  have hlow := ft.low.isLt
  simp only [ticks]
  omega

theorem toTimeT_eq (ft : FileTime) :
    ft.toTimeT = ((ft.ticks : ℤ) - 116444736000000000).tdiv 10000000 := by
  have hlt := ft.ticks_lt
  have hticks : (BitVec.ofNat 64 ft.ticks).toInt = ft.ticks := by
    rw [BitVec.toInt_eq_toNat_of_lt] <;> rw [BitVec.toNat_ofNat, Nat.mod_eq_of_lt] <;> omega
  have hepoch : (116444736000000000#64).toInt = 116444736000000000 := by decide
  rw [toTimeT, BitVec.toInt_sub, hticks, hepoch, Int.bmod_eq_of_le] <;> omega

/-- A later file has no earlier second. -/
theorem toTimeT_mono {ft ft' : FileTime} (h : ft.ticks ≤ ft'.ticks) : ft.toTimeT ≤ ft'.toTimeT := by
  rw [toTimeT_eq, toTimeT_eq]
  exact Int.tdiv_le_tdiv (by decide) (by omega)

end FileTime

structure LogFile where
  name : Text
  creation : FileTime
  deriving DecidableEq

def LogFile.path (dir : Text) (f : LogFile) : Text := dir ++ '\\' :: f.name

theorem LogFile.path_inj {dir : Text} {f g : LogFile} (h : f.path dir = g.path dir) :
    f.name = g.name := (List.cons.inj (List.append_cancel_left h)).2

/-- The files of a folder; no two have one name. -/
structure Folder where
  files : List LogFile
  nodup : (files.map LogFile.name).Nodup

namespace Folder

/-- `GetFileAttributesExA`: the creation time. -/
def attributes (folder : Folder) (dir path : Text) : Option FileTime :=
  (folder.files.find? fun f => f.path dir = path).map LogFile.creation

/-- `DeleteFileA`. -/
def delete (folder : Folder) (dir path : Text) : Folder where
  files := folder.files.filter fun f => f.path dir ≠ path
  nodup := folder.nodup.sublist (List.filter_sublist.map _)

theorem eq_of_path {folder : Folder} {dir : Text} {f g : LogFile} (hf : f ∈ folder.files)
    (hg : g ∈ folder.files) (h : f.path dir = g.path dir) : f = g :=
  List.inj_on_of_nodup_map folder.nodup hf hg (LogFile.path_inj h)

theorem attributes_path {folder : Folder} (dir : Text) {f : LogFile} (hf : f ∈ folder.files) :
    folder.attributes dir (f.path dir) = some f.creation := by
  rw [attributes]
  cases hfind : folder.files.find? fun g => g.path dir = f.path dir with
  | none => exact absurd (List.find?_eq_none.mp hfind f hf) (by simp)
  | some g =>
    have hpath : g.path dir = f.path dir := by simpa using List.find?_some hfind
    rw [eq_of_path (List.mem_of_find?_eq_some hfind) hf hpath]
    rfl

end Folder

/-! ## The check -/

/-- The fields of `LOG_INIT_INFO` that are read here. -/
structure LogInitInfo where
  name : Text
  path : Text
  expired : ℤ

/-- The name contains that of the log. -/
def LogInitInfo.OfLog (info : LogInitInfo) (f : LogFile) : Prop := info.name <:+: f.name

instance (info : LogInitInfo) (f : LogFile) : Decidable (info.OfLog f) :=
  inferInstanceAs (Decidable (_ <:+: _))

def Folder.logs (folder : Folder) (info : LogInitInfo) : List LogFile :=
  folder.files.filter fun f => info.OfLog f

def iCollectFiles (info : LogInitInfo) (folder : Folder) : List Text :=
  (folder.logs info).map (LogFile.path info.path)

/-- `file_map` once `file_list` has been emptied from its back. -/
def fileMap (folder : Folder) (dir : Text) (fileList : List Text) : Map ℤ Text :=
  fileList.foldr (fun fname m =>
    match folder.attributes dir fname with
    | some creation => m.insert creation.toTimeT fname
    | none => m) ∅

/-- `while (file_map.size() > info_.expired)`; an empty path would keep it from ending. -/
def deleteFirst (limit : ℕ) (dir : Text) : ℕ → Map ℤ Text → Folder → Option Folder
  | 0, _, _ => none
  | fuel + 1, m, folder =>
    if m.keys.length ≤ limit then some folder
    else
      match firstKey? m with
      | none => none
      | some key =>
        match m.lookup key with
        | none => none
        | some path =>
          if path.isEmpty then deleteFirst limit dir fuel m folder
          else deleteFirst limit dir fuel (m.erase key) (folder.delete dir path)

def iCheckExpired (t : Target) (info : LogInitInfo) (folder : Folder) : Option Folder :=
  let m := fileMap folder info.path (iCollectFiles info folder)
  deleteFirst (toSize t info.expired) info.path (m.keys.length + 1) m folder

end DevFramework.Log
