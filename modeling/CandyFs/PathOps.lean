import CandyFs.Path

/-! The operations on the entries of directories: the second part of `path.c`.
-/
namespace CandyFs
open Bytes

section
variable [Geometry]

/-- An assertion that has failed. -/
def failed {α : Type} : Act α := fun _ => .error (.abort ())

/-- Closes an inode whose reference is held. -/
def closeHeld (inode : Int) : Act Unit := do
  let res ← refsClose inode
  assert (res = 0)

/-- Removes an entry that is there. -/
def removeEntry (path : OpenPathNode) (inode : Int) : Act Unit := do
  let res ← onDisk (dirRemove · path.parentDir path.name)
  assert (res = inode)

/-- Gives up one link and the reference to an inode. -/
def unlinkHeld (inode : Int) : Act Unit := do
  let res ← refsUnlink inode
  assert (res = 0)
  closeHeld inode

def pathLink (path inode : Int) (user group : Nat) : Act Int := do
  match ← onPath path with
  | none => pure (-1)
  | some node =>
    match ← getinfo inode with
    | none => pure (-1)
    | some info =>
      if sISDIR info.mode then pure (-ePERM)
      else do
        let ores ← reading (.ok <| permCheck · node.parentDir permWrite user group)
        if ores < 0 then pure ores
        else do
          let ores ← onDisk (dirInsert · node.parentDir node.name inode)
          if ores < 0 then pure ores
          else do
            let res ← refsLink inode
            assert (res = 0)
            pure 0

def pathUnlink (path : Int) (user group : Nat) : Act Int := do
  match ← onPath path with
  | none => pure (-1)
  | some node => do
    let inode ← pathGet path
    if inode < 0 then pure (-eNOENT)
    else
      match ← getinfo inode with
      | none => failed
      | some info =>
        if sISDIR info.mode then pure (-ePERM)
        else do
          let ores ← reading (.ok <| permCheck · node.parentDir permWrite user group)
          if ores < 0 then do
            closeHeld inode
            pure ores
          else do
            removeEntry node inode
            unlinkHeld inode
            pure 0

def pathMkdir (path : Int) (mode user group : Nat) : Act Int := do
  match ← onPath path with
  | none => pure (-1)
  | some node => do
    let ores ← reading (.ok <| permCheck · node.parentDir permWrite user group)
    if ores < 0 then pure ores
    else do
      let directory ← onDisk (dirCreate · node.parentDir)
      if directory < 0 then pure directory
      else do
        let res ← refsOpen directory
        assert (res = 0)
        let ores ← onDisk (.ok <| permChown · directory 0 user group)
        if ores < 0 then do
          closeHeld directory
          pure ores
        else do
          let ores ← onDisk (.ok <| permChmod · directory mode user)
          if ores < 0 then do
            closeHeld directory
            pure ores
          else do
            let ores ← onDisk (dirInsert · node.parentDir node.name directory)
            if ores < 0 then do
              closeHeld directory
              pure ores
            else do
              let res ← refsLink directory
              assert (res = 0)
              closeHeld directory
              pure 0

def pathRmdir (path : Int) (user group : Nat) : Act Int := do
  match ← onPath path with
  | none => pure (-1)
  | some node => do
    let inode ← pathGet path
    if inode < 0 then pure (-eNOENT)
    else do
      let ores ← reading (.ok <| permCheck · node.parentDir permWrite user group)
      if ores < 0 then do
        closeHeld inode
        pure ores
      else do
        let ores ← onDisk (dirDestroy · inode)
        if ores < 0 then do
          closeHeld inode
          pure ores
        else do
          removeEntry node inode
          unlinkHeld inode
          pure 0

/-- The part of `path_rename` that removes the target if there is one. Returns the error that
`path_rename` ends with, or nothing when it goes on. -/
def renameTarget (dst : OpenPathNode) (dstpath inode : Int) (isdir : Bool) : Act (Option Int) := do
  let current ← pathGet dstpath
  if current < 0 then pure none
  else
    match ← getinfo current with
    | none => failed
    | some info => do
      let refused ← if sISDIR info.mode then
          if isdir = false then do
            closeHeld inode
            closeHeld current
            pure (some (-eISDIR))
          else do
            let ores ← onDisk (dirDestroy · current)
            if ores < 0 then do
              closeHeld inode
              closeHeld current
              pure (some ores)
            else pure none
        else if isdir = true then do
          closeHeld inode
          closeHeld current
          pure (some (-eNOTDIR))
        else pure none
      if refused ≠ none then pure refused
      else do
        removeEntry dst current
        unlinkHeld current
        pure none

def pathRename (dstpath srcpath : Int) (user group : Nat) : Act Int := do
  match ← onPath srcpath with
  | none => pure (-1)
  | some src =>
    match ← onPath dstpath with
    | none => pure (-1)
    | some dst => do
      let inode ← pathGet srcpath
      if inode < 0 then pure (-eNOENT)
      else do
        let ores ← reading (.ok <| permCheck · dst.parentDir permWrite user group)
        if ores < 0 then do
          closeHeld inode
          pure ores
        else do
          let ores ← reading (.ok <| permCheck · src.parentDir permWrite user group)
          if ores < 0 then do
            closeHeld inode
            pure ores
          else
            match ← getinfo inode with
            | none => failed
            | some info => do
              let isdir := decide (sISDIR info.mode)
              match ← renameTarget dst dstpath inode isdir with
              | some ores => pure ores
              | none => do
                let ores ← onDisk (dirInsert · dst.parentDir dst.name inode)
                if ores < 0 then do
                  closeHeld inode
                  pure ores
                else do
                  removeEntry src inode
                  if isdir = true then do
                    let res ← onDisk (dirReparent · inode dst.parentDir)
                    assert (res = 0)
                    closeHeld inode
                    pure 0
                  else do
                    closeHeld inode
                    pure 0

def mkfsPath (owner group : Nat) : Act Int := do
  let root ← onDisk (dirCreate · 0)
  assert (root = 0)
  let res ← refsOpen root
  assert (res = 0)
  let res ← refsLink root
  assert (res = 0)
  let res ← onDisk (.ok <| permChown · root 0 owner group)
  assert (res = 0)
  let res ← onDisk (.ok <| permChmod · root 0o755 owner)
  assert (res = 0)
  closeHeld root
  pure 0

end

end CandyFs
