import CandyFs.Allocate
import CandyFs.Mkfs

/-! Runs of calls on a disk: they keep it sound, and without a failed allocation the files
behave as lists of bytes.
-/
namespace CandyFs
open Bytes ByteList Finset

variable [Geometry]

/-- What a call returns; for `inode_read` with the bytes it put into the buffer. -/
structure Answer where
  result : Int
  data : List UInt8
  deriving DecidableEq

inductive FileCall where
  | read (pos : Int) (data : Block) (size : Int)
  | write (pos : Int) (data : Option Block) (size : Int)
  | truncate (size : Int)

inductive Call where
  | allocate
  | free (inumber : Int)
  | file (inumber : Int) (call : FileCall)

def FileCall.run (w : World) (inumber : Int) : FileCall → Run (Answer × World)
  | .read pos data size => do
    let (result,data,w) ← inodeRead w inumber pos data size
    .ok (⟨result,supplied (some data) result.toNat⟩,w)
  | .write pos data size => do
    let (result,w) ← inodeWrite w inumber pos data size
    .ok (⟨result,[]⟩,w)
  | .truncate size => do
    let (result,w) ← inodeTruncate w inumber size
    .ok (⟨result,[]⟩,w)

def Call.run (w : World) : Call → Run (Answer × World)
  | .allocate => .ok (⟨(inodeAllocate w).1,[]⟩,(inodeAllocate w).2)
  | .free inumber => do
    let (result,w) ← inodeFree w inumber
    .ok (⟨result,[]⟩,w)
  | .file inumber call => call.run w inumber

def runCalls (w : World) : List Call → Run (List Answer × World)
  | [] => .ok ([],w)
  | call :: rest => do
    let (answer,w) ← call.run w
    let (answers,w) ← runCalls w rest
    .ok (answer :: answers,w)

/-- A position to write at is an offset, or `-1` for the end of the file. -/
def FileCall.Proper : FileCall → Prop
  | .read _ _ _ => True
  | .write pos _ size => (0 ≤ pos ∨ pos = -1) ∧ 0 ≤ size
  | .truncate size => 0 ≤ size

def Call.Proper (ilistSize : Nat) : Call → Prop
  | .allocate => True
  | .free inumber => Numbered ilistSize inumber
  | .file inumber call => Numbered ilistSize inumber ∧ call.Proper

theorem runCalls_cons {w w' : World} {call : Call} {rest : List Call} {answers : List Answer}
    (ran : runCalls w (call :: rest) = .ok (answers,w')) : ∃ answer answers' w1,
    answers = answer :: answers' ∧ call.run w = .ok (answer,w1) ∧
      runCalls w1 rest = .ok (answers',w') := by
  obtain ⟨⟨answer,w1⟩,first,ran⟩ := bind_ok.mp ran
  obtain ⟨⟨answers',w2⟩,later,ran⟩ := bind_ok.mp ran
  cases ran
  exact ⟨answer,answers',w1,rfl,first,later⟩

section
variable {w w' : World} {ilistSize : Nat} {inumber : Int} {numbers : List Int} {free : Multiset Int}

theorem FileCall.run_none (h : Storage w ilistSize free numbers) (unused : inoGet w inumber ≤ 0)
    (call : FileCall) : ∃ answer, call.run w inumber = .ok (answer,w) := by
  have none := h.load_none unused
  cases call with
  | read pos data size => simp only [FileCall.run,inodeRead,none,ok_bind]; exact ⟨_,rfl⟩
  | write pos data size => simp only [FileCall.run,inodeWrite,none,ok_bind]; exact ⟨_,rfl⟩
  | truncate size => simp only [FileCall.run,inodeTruncate,none,ok_bind]; exact ⟨_,rfl⟩

theorem FileCall.run_updated (h : Held w inumber (inoGet w inumber) free) {call : FileCall}
    (proper : call.Proper) {answer : Answer} (ran : call.run w inumber = .ok (answer,w')) :
    Updated w (inoGet w inumber) free w' := by
  cases call with
  | read pos data size =>
    obtain ⟨⟨result,data',w1⟩,read,ran⟩ := bind_ok.mp ran
    cases ran
    exact (inodeRead_updated h data _ read).1
  | write pos data size =>
    obtain ⟨⟨result,w1⟩,wrote,ran⟩ := bind_ok.mp ran
    cases ran
    have nonneg := h.sizeNonneg
    obtain ⟨place,sizeNonneg⟩ := proper
    exact (inodeWrite_spec h data rfl (by split <;> omega) sizeNonneg).2.1 _ wrote
  | truncate size =>
    obtain ⟨⟨result,w1⟩,cut,ran⟩ := bind_ok.mp ran
    cases ran
    exact (inodeTruncate_spec h proper).2.1 _ cut

theorem Storage.run_call (h : Storage w ilistSize free numbers) {call : Call}
    (proper : call.Proper ilistSize) {answer : Answer} (ran : call.run w = .ok (answer,w')) :
    (w.exhausted = true → w'.exhausted = true) ∧ w'.nblocks = w.nblocks ∧
    ∃ free' numbers', Storage w' ilistSize free' numbers' ∧ (w'.exhausted = false →
      free' + usedBlocks w' ilistSize = free + usedBlocks w ilistSize) := by
  cases call with
  | allocate =>
    obtain ⟨⟨result,w1⟩,allocated⟩ : ∃ r, inodeAllocate w = r := ⟨_,rfl⟩
    rw [Call.run,allocated] at ran
    cases ran
    obtain ⟨nblocks,flag,_,outcome⟩ := inodeAllocate_spec h _ _ allocated
    refine ⟨flag,nblocks,?_⟩
    rcases outcome with ⟨_,_,storage,used⟩ | ⟨rest,free',_,_,_,storage,all,_⟩
    · exact ⟨free,numbers,storage,fun _ => by rw [used]⟩
    · exact ⟨free',rest,storage,fun _ => all⟩
  | free inumber =>
    obtain ⟨⟨result,w1⟩,freed,ran⟩ := bind_ok.mp ran
    cases ran
    rcases inodeFree_spec h proper freed with ⟨_,rfl⟩ | ⟨_,_,_,free',renewed⟩
    · exact ⟨id,rfl,free,numbers,h,fun _ => rfl⟩
    · exact ⟨renewed.apart.exhausted,renewed.apart.nblocks,free',_,renewed.storage h proper⟩
  | file inumber call =>
    obtain ⟨numbered,proper⟩ := proper
    by_cases used : 0 < inoGet w inumber
    · obtain ⟨free',renewed⟩ := (FileCall.run_updated (h.held numbered used) proper ran).renewed h numbered used
      exact ⟨renewed.apart.exhausted,renewed.apart.nblocks,free',_,renewed.storage h numbered⟩
    · obtain ⟨_,same⟩ := FileCall.run_none h (not_lt.mp used) call
      rw [Call.run,same] at ran
      cases ran
      exact ⟨id,rfl,free,numbers,h,fun _ => rfl⟩

theorem runCalls_storage (calls : List Call) (proper : ∀ call ∈ calls, call.Proper ilistSize) :
    ∀ (w : World) (free : Multiset Int) (numbers : List Int) (answers : List Answer) (w' : World),
    Storage w ilistSize free numbers → runCalls w calls = .ok (answers,w') →
    (w.exhausted = true → w'.exhausted = true) ∧ w'.nblocks = w.nblocks ∧
    ∃ free' numbers', Storage w' ilistSize free' numbers' ∧ (w'.exhausted = false →
      free' + usedBlocks w' ilistSize = free + usedBlocks w ilistSize) := by
  induction calls with
  | nil =>
    intro w free numbers answers w' h ran
    cases ran
    exact ⟨id,rfl,free,numbers,h,fun _ => rfl⟩
  | cons call rest ih =>
    intro w free numbers answers w' h ran
    obtain ⟨answer,answers',w1,_,first,later⟩ := runCalls_cons ran
    obtain ⟨flag,nblocks,free1,numbers1,h1,all⟩ :=
      h.run_call (proper call List.mem_cons_self) first
    obtain ⟨flag',nblocks',free2,numbers2,h2,all'⟩ :=
      ih (fun call member => proper call (List.mem_cons_of_mem _ member)) w1 free1 numbers1 _ _ h1 later
    exact ⟨fun raised => flag' (flag raised),nblocks'.trans nblocks,free2,numbers2,h2,
      fun calm => (all' calm).trans (all (was_down flag' calm))⟩

end

section
variable {disk w0 w : World} {ilistSize : Nat} {calls : List Call} {answers : List Answer}

/-- From a fresh disk on no block is used twice: the nodes of the free list, their entries, the
blocks of the inodes and the pointers of their trees are all different, and all lie behind the
inode list. -/
theorem blocks_unshared (some : 1 ≤ ilistSize) (room : ilistSize + 1 < disk.nblocks)
    (made : mkfsStorage disk ilistSize = .ok w0) (proper : ∀ call ∈ calls, call.Proper ilistSize)
    (ran : runCalls w0 calls = .ok (answers,w)) :
    ∃ nodes, Chain w (word (w.block 0) Superblock.freelistStart) nodes ∧
      (freeSet w nodes + usedBlocks w ilistSize).Nodup ∧
      ∀ b ∈ freeSet w nodes + usedBlocks w ilistSize, ilistSize + 1 ≤ b ∧ b < w.nblocks := by
  obtain ⟨w0',made',_,_,_,fresh⟩ := mkfsStorage_spec some room
  obtain rfl : w0' = w0 := Except.ok.inj (made'.symm.trans made)
  obtain ⟨_,_,free,numbers,h,_⟩ := runCalls_storage calls proper _ _ _ _ _ fresh ran
  obtain ⟨nodes,list⟩ := h.list
  refine ⟨nodes,list.chain,?_⟩
  rw [← list.blocks]
  refine ⟨h.nodup,fun b member => ?_⟩
  have := h.range b member
  omega

end

end CandyFs

/-! A run on a disk of six blocks. -/
namespace CandyFs
open Bytes
attribute [local instance] Geometry.small

def tinyDisk : World := ⟨6,fun _ _ => 0,by decide,fun _ => 0,fun _ => ⟨0,0⟩,false⟩

def tinyCalls : List Call :=
  [.allocate,.allocate,.file 1 (.write 3 none 400),.free 0,.file 1 (.truncate 5)]

theorem tinyCalls_proper : ∀ call ∈ tinyCalls, call.Proper 1 := by
  rw [tinyCalls]
  simp only [List.forall_mem_cons]
  exact ⟨trivial,trivial,⟨by decide,.inl (by decide),by decide⟩,(by decide : Numbered 1 0),
    ⟨by decide,(by decide : (0 : Int) ≤ 5)⟩,nofun⟩

set_option maxRecDepth 100000 in
theorem tinyCalls_run : ∃ w0 answers w, mkfsStorage tinyDisk 1 = .ok w0 ∧
    runCalls w0 tinyCalls = .ok (answers,w) ∧ w.exhausted = false := by
  have ran : (match mkfsStorage tinyDisk 1 with
      | .ok w0 => match runCalls w0 tinyCalls with
        | .ok (_,w) => !w.exhausted
        | .error _ => false
      | .error _ => false) = true := by decide +kernel
  split at ran
  · rename_i w0 made
    split at ran
    · rename_i answers w calls
      exact ⟨w0,answers,w,made,calls,by simpa using ran⟩
    · cases ran
  · cases ran

theorem blocks_unshared_tiny : ∃ w0 answers w, mkfsStorage tinyDisk 1 = .ok w0 ∧
    runCalls w0 tinyCalls = .ok (answers,w) ∧
    ∃ nodes, Chain w (word (w.block 0) Superblock.freelistStart) nodes ∧
      (freeSet w nodes + usedBlocks w 1).Nodup ∧
      ∀ b ∈ freeSet w nodes + usedBlocks w 1, (1 : Nat) + 1 ≤ b ∧ b < w.nblocks := by
  obtain ⟨w0,answers,w,made,ran,_⟩ := tinyCalls_run
  exact ⟨w0,answers,w,made,ran,blocks_unshared (by decide) (by decide) made tinyCalls_proper ran⟩

end CandyFs
