import CandyFs.Objects
import CandyFs.Refs

/-! Paths: `path.c`. -/
namespace CandyFs
open Bytes

abbrev slash : UInt8 := 47

/-- The parts of a path between its slashes: all but the last are followed by one. -/
def pieces (path : Name) : List Name := path.splitOn slash

/-- The string in a buffer of `PATH_MAX` bytes. A string that is not terminated is read beyond the
buffer, where C leaves open what happens. -/
def bufferString (buffer : Block) : Try Name :=
  match (List.range pathMax).find? fun k => buffer k = 0 with
  | some size => .ok ((List.range size).map buffer)
  | none => .error (.abort ())

/-- `inode_getinfo`. -/
def getinfo (inode : Int) : Act (Option Node) := fun fs => .ok (fs.store.inode inode,fs)

section
variable [Geometry]

/-- Returns what it found, `*curdir`, the mode of what it found, and `*level`. -/
def nameiInternalSingle (nameiRec : Name → Int → Nat → Act (Int × Int)) (token : Name) (curdir : Int)
    (user group : Nat) (deref : Bool) (level : Nat) : Act (Int × Int × Nat × Nat) := do
  let res ← reading (.ok <| permCheck · curdir permExec user group)
  if res < 0 then pure (res,curdir,0,level)
  else do
    let current ← refsDirLookupOpen curdir token
    if current < 0 then pure (current,curdir,0,level)
    else match ← getinfo current with
      | none => pure (-eNOENT,curdir,0,level)
      | some info =>
        if deref = true ∧ sISLNK info.mode then do
          let (count,buffer) ← reading (.ok <| symlinkRead · current (fun _ => 0) pathMax)
          assert (count ≥ 0)
          let res ← refsClose current
          assert (res = 0)
          let linkpath ← reading fun _ => bufferString buffer
          let (current,curdir) ← nameiRec linkpath curdir (level + 1)
          match ← getinfo current with
            | none => pure (-eNOENT,curdir,0,level + 1)
            | some info => pure (current,curdir,info.mode,level + 1)
        else pure (current,curdir,info.mode,level)

/-- The traversal of the parts of a path. Returns what it found and `*curdir`. -/
def nameiLoop (nameiRec : Name → Int → Nat → Act (Int × Int)) (deref : Bool) (user group : Nat) :
    List Name → Int → Int → Nat → Act (Int × Int)
  | [],current,curdir,_ => pure (current,curdir)
  | [token],current,curdir,level =>
    if token = [] then pure (current,curdir)
    else do
      let res ← refsClose curdir
      assert (res = 0)
      let curdir := current
      let (current,curdir,_,_) ← nameiInternalSingle nameiRec token curdir user group deref level
      if current < 0 then pure (eof,curdir)
      else pure (current,curdir)
  | token :: rest,current,curdir,level =>
    if token = [] then nameiLoop nameiRec deref user group rest current curdir level
    else do
      let res ← refsClose curdir
      assert (res = 0)
      let curdir := current
      let (current,curdir,mode,level) ← nameiInternalSingle nameiRec token curdir user group true level
      if current < 0 then do
        let res ← refsClose curdir
        assert (res = 0)
        pure (current,eof)
      else if ¬sISDIR mode then do
        let res ← refsClose curdir
        assert (res = 0)
        pure (-eNOTDIR,eof)
      else nameiLoop nameiRec deref user group rest current curdir level

/-- Symbolic links are followed up to this depth. -/
abbrev levelMax : Nat := 8

/-- Returns what it found and `*curdir`. -/
def nameiRec (rootdir : Int) (user group : Nat) : Nat → Name → Int → Bool → Nat → Act (Int × Int)
  | 0,_,_,_,_ => fun _ => .error .stuck
  | fuel + 1,path,curdir,deref,level =>
    if level > levelMax then pure (-eLOOP,curdir)
    else do
      let current := curdir
      let res ← refsOpen current
      if res ≠ 0 then pure (-eNOENT,curdir)
      else if path.head? = some slash then do
        let res ← refsClose current
        assert (res = 0)
        let res ← refsClose curdir
        assert (res = 0)
        let current := rootdir
        let curdir := rootdir
        let res ← refsOpen current
        assert (res = 0)
        let res ← refsOpen curdir
        assert (res = 0)
        nameiLoop (fun path curdir level => nameiRec rootdir user group fuel path curdir true level)
          deref user group (pieces path.tail) current curdir level
      else
        nameiLoop (fun path curdir level => nameiRec rootdir user group fuel path curdir true level)
          deref user group (pieces path) current curdir level

/-- Each level of `namei_rec` takes one. -/
abbrev nameiFuel : Nat := levelMax + 2

/-- `none` for a null pointer. Returns what it found and `*curdir`. -/
def namei (path : Name) (curdir : Option Int) (rootdir : Int) (deref : Bool) (user group : Nat) :
    Act (Int × Int) := do
  let usemyroot := rootdir = eof
  let rootdir := if usemyroot then 0 else rootdir
  if usemyroot then do
    let res ← refsOpen rootdir
    assert (res = 0)
  let usemycurdir := curdir = none
  let curdir := curdir.getD eof
  let start := if curdir = eof then rootdir else curdir
  if curdir = eof then do
    let res ← refsOpen start
    assert (res = 0)
  let (result,curdir) ← nameiRec rootdir user group nameiFuel path start deref 0
  if usemyroot then do
    let res ← refsClose rootdir
    assert (res = 0)
  if usemycurdir then do
    let res ← refsClose curdir
    assert (res = 0)
  pure (result,curdir)

end

abbrev maxOpenPaths : Nat := 1024

/-- The last name of a path as it is written. -/
def lastName (path : Name) : Name :=
  let stem := (path.reverse.dropWhile (· = slash)).reverse
  if stem = [] then dot else (stem.reverse.takeWhile (· ≠ slash)).reverse

/-- The scan of the table: the last free handle, or `-1`, and nothing when the path is open under a
handle that `noblock` says not to wait for. Waiting for another one would never end. -/
def pathChoose (table : Nat → OpenPathNode) (curdir : Int) (token : Name) (noblock : Int) :
    List Nat → Int → Try (Option Int)
  | [],chosen => .ok (some chosen)
  | handle :: rest,chosen =>
    if (table handle).refs = 0 then pathChoose table curdir token noblock rest handle
    else if (table handle).parentDir = curdir ∧ (table handle).name = token then
      if noblock = handle ∨ noblock = -2 then .ok none else .error (.abort ())
    else pathChoose table curdir token noblock rest chosen

def Fs.setPath (fs : Fs) (handle : Nat) (node : OpenPathNode) : Fs :=
  { fs with openPathTable := Function.update fs.openPathTable handle node }

/-- The entry of a handle that is open. -/
def Fs.path (fs : Fs) (path : Int) : Option OpenPathNode :=
  if path ≥ maxOpenPaths ∨ path < 0 ∨ (fs.openPathTable path.toNat).refs = 0 then none
  else some (fs.openPathTable path.toNat)

def onPath (path : Int) : Act (Option OpenPathNode) := fun fs => .ok (fs.path path,fs)

section
variable [Geometry]

def pathOpen (path : Name) (deref : Bool) (user group : Nat) (noblock : Int) : Act Int := do
  let (target,curdir) ← namei path (some eof) eof deref user group
  if target < 0 ∧ target ≠ eof then pure target
  else do
    if target ≠ eof then do
      let res ← refsClose target
      assert (res = 0)
    let token := lastName path
    if token.length > nameMax then do
      let res ← refsClose curdir
      assert (res = 0)
      pure (-eNAMETOOLONG)
    else do
      let fs ← get
      match ← reading fun _ => pathChoose fs.openPathTable curdir token noblock (List.range maxOpenPaths) (-1) with
      | none => do
        let res ← refsClose curdir
        assert (res = 0)
        pure (-eWOULDBLOCK)
      | some chosen =>
        if chosen = -1 then do
          let res ← refsClose curdir
          assert (res = 0)
          pure (-eNOMEM)
        else do
          modify (·.setPath chosen.toNat ⟨1,curdir,token⟩)
          pure chosen

def pathClose (path : Int) : Act Int := do
  match ← onPath path with
  | none => pure (-1)
  | some node => do
    modify (·.setPath path.toNat { node with refs := node.refs - 1 })
    assert (node.refs - 1 = 0)
    let res ← refsClose node.parentDir
    assert (res = 0)
    pure 0

def pathGet (path : Int) : Act Int := do
  match ← onPath path with
  | none => pure (-1)
  | some node => refsDirLookupOpen node.parentDir node.name

def pathResolve (path : Name) (deref : Bool) (user group : Nat) : Act Int := do
  let (res,_) ← namei path none eof deref user group
  if res = eof then pure (-eNOENT) else pure res

end

end CandyFs
