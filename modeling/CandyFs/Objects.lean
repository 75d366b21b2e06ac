import CandyFs.Dir

/-! Permissions, regular files and symbolic links: `perm.c`, `file.c` and `symlink.c`. -/
namespace CandyFs
open Bytes

abbrev permRead : Nat := 4
abbrev permWrite : Nat := 2
abbrev permExec : Nat := 1
abbrev permUtime : Nat := 8

def permCheck (s : Store) (inode : Int) (perms user group : Nat) : Int :=
  match s.inode inode with
  | none => -eNOENT
  | some info =>
    if user = 0 then 0
    else if perms = permUtime ∧ user = info.owner then 0
    else
      let perms := if perms = permUtime then permWrite else perms
      if user = info.owner then
        if perms &&& (info.mode >>> 6) &&& 7 = perms then 0 else -eACCES
      else if group = info.group then
        if perms &&& (info.mode >>> 3) &&& 7 = perms then 0 else -eACCES
      else if perms &&& info.mode &&& 7 = perms then 0
      else -eACCES

def permChmod (s : Store) (inode : Int) (mode user : Nat) : Int × Store :=
  match s.inode inode with
  | none => (-eNOENT,s)
  | some info =>
    if mode &&& 0o7777 ≠ mode then (-eINVAL,s)
    else if user ≠ 0 ∧ user ≠ info.owner then (-eACCES,s)
    else s.inodeChmod inode (mode ||| (info.mode &&& (2 ^ 32 - 1 - 0o7777)))

def permChown (s : Store) (inode : Int) (user newuser newgroup : Nat) : Int × Store :=
  if user ≠ 0 then (-eACCES,s)
  else s.inodeChown inode newuser newgroup

variable [Geometry]

def fileCreate (s : Store) : Try (Int × Store) := do
  let (file,s) := s.inodeAllocate
  if file < 0 then .ok (-eNOSPC,s)
  else do
    let (res,s) := s.inodeChmod file (sIFREG ||| 0o777)
    check () (res ≥ 0)
    .ok (file,s)

/-- The answer for an inode that is not a regular file. -/
def notRegular (info : Node) : Int := if sISDIR info.mode then -eISDIR else -eINVAL

/-- Returns the count and the caller's buffer afterwards. -/
def fileRead (s : Store) (file pos : Int) (data : Block) (size : Int) : Int × Block :=
  match s.inode file with
  | none => (-eNOENT,data)
  | some info =>
    if ¬sISREG info.mode then (notRegular info,data)
    else s.inodeRead file pos data size

def fileWrite (s : Store) (file pos : Int) (data : Option Block) (size : Int) : Try (Int × Store) :=
  match s.inode file with
  | none => .ok (-eNOENT,s)
  | some info =>
    if ¬sISREG info.mode then .ok (notRegular info,s)
    else s.inodeWrite file pos data size

def fileTruncate (s : Store) (file size : Int) : Int × Store :=
  match s.inode file with
  | none => (-eNOENT,s)
  | some info =>
    if ¬sISREG info.mode then (notRegular info,s)
    else s.inodeTruncate file size

/-- The bytes of a string in memory. -/
def stringBytes (string : Name) : Block := fun k => string.getD k 0

def symlinkCreate (s : Store) (filename : Name) : Try (Int × Store) :=
  if filename.length = 0 ∨ filename.length > pathMax - 1 then .ok (-eNAMETOOLONG,s)
  else do
    let (symlink,s) := s.inodeAllocate
    if symlink < 0 then .ok (-eNOSPC,s)
    else do
      let (res,s) := s.inodeChmod symlink (sIFLNK ||| 0o777)
      check () (res = 0)
      let (count,s) ← s.inodeWrite symlink 0 (some (stringBytes filename)) filename.length
      if count < filename.length then do
        let (res,s) := s.inodeFree symlink
        check () (res = 0)
        .ok (-eNOSPC,s)
      else .ok (symlink,s)

def symlinkRead (s : Store) (symlink : Int) (filename : Block) (maxsize : Int) : Int × Block :=
  match s.inode symlink with
  | none => (-eNOENT,filename)
  | some info =>
    if ¬sISLNK info.mode then (-eINVAL,filename)
    else s.inodeRead symlink 0 filename maxsize

end CandyFs
