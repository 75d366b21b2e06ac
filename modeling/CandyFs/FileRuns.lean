import CandyFs.StorageRuns

/-! The files of a disk as lists of bytes: what each call means for them, and that a run on the
disk does the same as the run on the lists.
-/
namespace CandyFs
open Bytes ByteList Finset

variable [Geometry]

/-- The contents of every inode in use. -/
abbrev Files := Int → Option (List UInt8)

def files (w : World) (ilistSize : Nat) : Files := fun n =>
  if Numbered ilistSize n ∧ 0 < inoGet w n then some (contents w (w.block (inoGet w n))) else none

/-- What a call returns for a file, and what becomes of it. -/
def FileCall.spec (file : List UInt8) : FileCall → Answer × List UInt8
  | .read pos _ size =>
    (⟨(readAt file pos.toNat size.toNat).length,readAt file pos.toNat size.toNat⟩,file)
  | .write pos data size =>
    (⟨size,[]⟩,writeAt file (if pos = -1 then (file.length : Int) else pos).toNat
      (supplied data size.toNat))
  | .truncate size => (⟨size,[]⟩,resize file size.toNat)

/-- A call with an offset in the file, or the end of it, and a size. -/
def FileCall.InRange : FileCall → Prop
  | .read pos _ size => 0 ≤ pos ∧ 0 ≤ size
  | .write pos _ size => (0 ≤ pos ∨ pos = -1) ∧ 0 ≤ size
  | .truncate size => 0 ≤ size

/-- The end of the range to read is an `off_t`, or the file does not get as far as the range. -/
def FileCall.EndFits (file : List UInt8) : FileCall → Prop
  | .read pos _ size => pos + size < 2 ^ 63 ∨ (file.length : Int) ≤ pos
  | _ => True

def Files.run (files : Files) : List (Int × FileCall) → List Answer × Files
  | [] => ([],files)
  | (inumber,call) :: rest =>
    match files inumber with
    | none => ([],files)
    | some file =>
      let (answer,file) := call.spec file
      let (answers,files) := Files.run (Function.update files inumber (some file)) rest
      (answer :: answers,files)

/-- Every call is made on a file, with arguments in range, no read of it wraps, and the file is left
no larger than `MAX_FILESIZE`. -/
def Files.Admits (files : Files) : List (Int × FileCall) → Prop
  | [] => True
  | (inumber,call) :: rest => ∃ file, files inumber = some file ∧ call.InRange ∧ call.EndFits file ∧
      (call.spec file).2.length ≤ maxFilesize ∧
      Files.Admits (Function.update files inumber (some (call.spec file).2)) rest

def fileCalls (calls : List (Int × FileCall)) : List Call := calls.map fun call => .file call.1 call.2

section
variable {w w' : World} {ilistSize : Nat} {inumber : Int} {numbers : List Int} {free : Multiset Int}

omit [Geometry] in
theorem FileCall.InRange.proper {call : FileCall} (h : call.InRange) : call.Proper := by
  cases call with
  | read pos data size => trivial
  | write pos data size => exact h
  | truncate size => exact h

theorem FileCall.run_orderly (h : Held w inumber (inoGet w inumber) free) {call : FileCall}
    (inRange : call.InRange) : Orderly w.exhausted (·.2.exhausted) (call.run w inumber) := by
  cases call with
  | read pos data size =>
    exact (inodeRead_orderly h inRange.1 data).bind fun _ _ => Orderly.ok id
  | write pos data size =>
    have nonneg := h.sizeNonneg
    obtain ⟨place,sizeNonneg⟩ := inRange
    exact (inodeWrite_spec h data rfl (by split <;> omega) sizeNonneg).1.bind fun _ _ => Orderly.ok id
  | truncate size => exact (inodeTruncate_spec h inRange).1.bind fun _ _ => Orderly.ok id

/-- A call on an inode does to its contents what it does to a list, unless blocks run out. -/
theorem FileCall.run_spec (h : Held w inumber (inoGet w inumber) free)
    (mapped : FileMapped w (w.block (inoGet w inumber))
      (blockcount (word (w.block (inoGet w inumber)) Inode.size))) {call : FileCall}
    (inRange : call.InRange) (endFits : call.EndFits (contents w (w.block (inoGet w inumber))))
    (fits : (call.spec (contents w (w.block (inoGet w inumber)))).2.length ≤ maxFilesize) :
    Delivers (·.2.exhausted) (fun r => r.1 = (call.spec (contents w (w.block (inoGet w inumber)))).1 ∧
      contents r.2 (r.2.block (inoGet w inumber)) =
        (call.spec (contents w (w.block (inoGet w inumber)))).2) (call.run w inumber) := by
  have length := length_contents (w := w) h.sizeNonneg
  have nonneg := h.sizeNonneg
  cases call with
  | read pos data size =>
    have sum : Fits (pos + size) ∨ word (w.block (inoGet w inumber)) Inode.size ≤ pos := by
      obtain ⟨low,sizeNonneg⟩ := inRange
      exact endFits.imp (fun short => ⟨by omega,short⟩) fun behind => length ▸ behind
    obtain ⟨count,data',w1,ran,counted,bytes,_⟩ := inodeRead_bytes h inRange.1 data sum mapped
    have after := ((inodeRead_updated h data _ ran).2.2.1 mapped).2
    simp only [FileCall.run,FileCall.spec,ran,ok_bind]
    refine Delivers.ok fun _ => ⟨?_,after⟩
    dsimp only
    rw [bytes,counted]
  | write pos data size =>
    obtain ⟨place,sizeNonneg⟩ := inRange
    have spec (start : Int) (started : start = if pos = -1
        then word (w.block (inoGet w inumber)) Inode.size else pos) (low : 0 ≤ start) :=
      inodeWrite_spec h data started low sizeNonneg
    obtain ⟨orderly,_,delivers⟩ := spec _ rfl (by split <;> omega)
    simp only [FileCall.spec,length_writeAt,length_supplied,length] at fits ⊢
    refine (delivers mapped (by split at fits <;> split <;> omega)).bind (fun _ _ => Orderly.ok id)
      fun r _ _ good => Delivers.ok fun _ => ⟨?_,good.2⟩
    rw [good.1]
  | truncate size =>
    obtain ⟨orderly,_,delivers⟩ := inodeTruncate_spec h (show 0 ≤ size from inRange)
    simp only [FileCall.spec,length_resize] at fits ⊢
    have small : min size (maxFilesize : Int) = size := by
      have : 0 ≤ size := inRange
      omega
    rw [small] at delivers
    refine (delivers mapped).bind (fun _ _ => Orderly.ok id)
      fun r _ _ good => Delivers.ok fun _ => ⟨?_,good.2⟩
    rw [good.1]

theorem files_some {file : List UInt8} : files w ilistSize inumber = some file ↔
    Numbered ilistSize inumber ∧ 0 < inoGet w inumber ∧
      contents w (w.block (inoGet w inumber)) = file := by
  rw [files]
  split
  · rename_i used
    rw [Option.some.injEq]
    exact ⟨fun same => ⟨used.1,used.2,same⟩,fun all => all.2.2⟩
  · rename_i unused
    exact ⟨nofun,fun all => absurd ⟨all.1,all.2.1⟩ unused⟩

theorem Files.Admits.inRange : ∀ {calls : List (Int × FileCall)} {files : Files},
    files.Admits calls → ∀ call ∈ calls, (∃ file, files call.1 = some file) ∧ call.2.InRange := by
  intro calls
  induction calls with
  | nil => exact nofun
  | cons call rest ih =>
    obtain ⟨number,call⟩ := call
    rintro files ⟨file,used,inRange,_,_,later⟩ other member
    rcases List.mem_cons.mp member with rfl | member
    · exact ⟨⟨file,used⟩,inRange⟩
    · obtain ⟨⟨file',used'⟩,inRange'⟩ := ih later other member
      refine ⟨?_,inRange'⟩
      by_cases same : other.1 = number
      · exact ⟨file,same ▸ used⟩
      · rw [Function.update_of_ne same] at used'
        exact ⟨file',used'⟩

theorem FileCall.run_others (h : Storage w ilistSize free numbers)
    (numbered : Numbered ilistSize inumber) (used : 0 < inoGet w inumber) {call : FileCall}
    (proper : call.Proper) {answer : Answer} (ran : call.run w inumber = .ok (answer,w')) :
    inoGet w' inumber = inoGet w inumber ∧
      (∃ free', Storage w' ilistSize free' numbers) ∧
      ∀ n, Numbered ilistSize n → n ≠ inumber → Untouched w w' n := by
  have updated := FileCall.run_updated (h.held numbered used) proper ran
  obtain ⟨_,held,_⟩ := updated.held (h.held numbered used)
  obtain ⟨free',renewed⟩ := updated.renewed h numbered used
  exact ⟨held.names.number,⟨free',(renewed.storage h numbered).1⟩,
    fun n numbered' differ => renewed.untouched h numbered numbered' differ⟩

theorem files_update (h : Storage w ilistSize free numbers) (calm : w.exhausted = false)
    (numbered : Numbered ilistSize inumber) (used : 0 < inoGet w inumber) {call : FileCall}
    (proper : call.Proper) {answer : Answer} (ran : call.run w inumber = .ok (answer,w')) :
    files w' ilistSize = Function.update (files w ilistSize) inumber
      (some (contents w' (w'.block (inoGet w inumber)))) := by
  obtain ⟨entry,_,others⟩ := FileCall.run_others h numbered used proper ran
  funext n
  by_cases same : n = inumber
  · subst same
    rw [Function.update_self,files_some,entry]
    exact ⟨numbered,used,rfl⟩
  · rw [Function.update_of_ne same]
    by_cases inUse : Numbered ilistSize n ∧ 0 < inoGet w n
    · obtain ⟨numbered',used'⟩ := inUse
      have other := others n numbered' same
      rw [files,files,if_pos ⟨numbered',by rw [other.entry]; exact used'⟩,if_pos ⟨numbered',used'⟩,
        other.sameContents used' (h.file n numbered' used') (h.mapped calm n numbered' used')]
    · rw [files,files,if_neg inUse,if_neg]
      rintro ⟨numbered',used'⟩
      rw [(others n numbered' same).entry] at used'
      exact inUse ⟨numbered',used'⟩

theorem fileCalls_orderly (calls : List (Int × FileCall)) (inRange : ∀ call ∈ calls,
    Numbered ilistSize call.1 ∧ call.2.InRange) : ∀ (w : World) (free : Multiset Int),
    Storage w ilistSize free numbers →
      Orderly w.exhausted (·.2.exhausted) (runCalls w (fileCalls calls)) := by
  induction calls with
  | nil => exact fun w free h => Orderly.ok id
  | cons call rest ih =>
    intro w free h
    obtain ⟨number,call⟩ := call
    obtain ⟨numbered,range⟩ := inRange _ List.mem_cons_self
    dsimp only at numbered range
    have later (w1 : World) (free1 : Multiset Int) (h1 : Storage w1 ilistSize free1 numbers) :=
      ih (fun other member => inRange other (List.mem_cons_of_mem _ member)) w1 free1 h1
    have rest' (w1 : World) (free1 : Multiset Int) (h1 : Storage w1 ilistSize free1 numbers)
        (answer : Answer) : Orderly w1.exhausted (·.2.exhausted)
          (runCalls w1 (fileCalls rest) >>= fun r => .ok (answer :: r.1,r.2)) := (later w1 free1 h1).bind fun _ _ => Orderly.ok id
    by_cases used : 0 < inoGet w number
    · refine (FileCall.run_orderly (h.held numbered used) range).bind ?_
      rintro ⟨answer,w1⟩ ran
      obtain ⟨_,⟨free1,h1⟩,_⟩ := FileCall.run_others h numbered used range.proper ran
      exact rest' w1 free1 h1 answer
    · obtain ⟨answer,ran⟩ := FileCall.run_none h (not_lt.mp used) call
      simp only [fileCalls,List.map_cons,runCalls,Call.run,ran,ok_bind]
      exact rest' w free h answer

/-- As long as `block_allocate` finds a block, the files are independent lists of bytes: a run of
calls fails no assertion, answers as the lists do, and leaves what they leave. -/
theorem files_independent (calls : List (Int × FileCall)) : ∀ (w : World) (free : Multiset Int),
    Storage w ilistSize free numbers → w.exhausted = false → (files w ilistSize).Admits calls →
    Delivers (·.2.exhausted) (fun r => (r.1,files r.2 ilistSize) = (files w ilistSize).run calls)
      (runCalls w (fileCalls calls)) := by
  induction calls with
  | nil => exact fun w free h calm admits => Delivers.ok fun _ => rfl
  | cons call rest ih =>
    obtain ⟨number,call⟩ := call
    intro w free h calm admits
    have ranges := admits.inRange
    obtain ⟨file,isFile,inRange,endFits,fits,admits⟩ := admits
    obtain ⟨numbered,used,same⟩ := files_some.mp isFile
    subst same
    have held := h.held numbered used
    have orderly (w1 : World) (ran : ∃ answer, call.run w number = .ok (answer,w1)) :
        Orderly w1.exhausted (·.2.exhausted) (runCalls w1 (fileCalls rest)) := by
      obtain ⟨answer,ran⟩ := ran
      obtain ⟨_,⟨free1,h1⟩,_⟩ := FileCall.run_others h numbered used inRange.proper ran
      refine fileCalls_orderly rest (fun other member => ?_) w1 free1 h1
      obtain ⟨⟨file,isFile⟩,inRange⟩ := ranges other (List.mem_cons_of_mem _ member)
      exact ⟨(files_some.mp isFile).1,inRange⟩
    refine (FileCall.run_spec held (h.mapped calm number numbered used) inRange endFits fits).bind ?_ ?_
    · rintro ⟨answer,w1⟩ ran
      exact (orderly w1 ⟨answer,ran⟩).bind fun _ _ => Orderly.ok id
    · rintro ⟨answer,w1⟩ ran calm1 ⟨answered,left⟩
      have updated := files_update h calm numbered used inRange.proper ran
      obtain ⟨_,⟨free1,h1⟩,_⟩ := FileCall.run_others h numbered used inRange.proper ran
      dsimp only at answered left
      rw [left] at updated
      rw [← updated] at admits
      refine (ih w1 free1 h1 calm1 admits).bind (fun _ _ => Orderly.ok id) ?_
      rintro ⟨answers,w2⟩ _ _ good
      refine Delivers.ok fun _ => ?_
      dsimp only at good ⊢
      rw [updated] at good
      simp only [Files.run,isFile,← good,answered]

end

end CandyFs

/-! Two files on the disk of six blocks. -/
namespace CandyFs
open Bytes
attribute [local instance] Geometry.small

def tinyFileCalls : List (Int × FileCall) :=
  [(0,.write 3 none 7),(1,.write (-1) (some fun _ => 65) 2),(0,.truncate 5)]

set_option maxRecDepth 100000 in
theorem tinyFiles_made : ∃ w0 answers w, mkfsStorage tinyDisk 1 = .ok w0 ∧
    runCalls w0 [.allocate,.allocate] = .ok (answers,w) ∧ w.exhausted = false ∧
    files w 1 0 = some [] ∧ files w 1 1 = some [] := by
  have ran : (match mkfsStorage tinyDisk 1 with
      | .ok w0 => match runCalls w0 [.allocate,.allocate] with
        | .ok (_,w) => !w.exhausted && files w 1 0 == some [] && files w 1 1 == some []
        | .error _ => false
      | .error _ => false) = true := by decide +kernel
  split at ran
  · rename_i w0 made
    split at ran
    · rename_i answers w calls
      simp only [Bool.and_eq_true,Bool.not_eq_true',beq_iff_eq] at ran
      exact ⟨w0,answers,w,made,calls,ran.1.1,ran.1.2,ran.2⟩
    · cases ran
  · cases ran

theorem files_independent_tiny : ∃ w, (files w 1).Admits tinyFileCalls ∧
    Delivers (·.2.exhausted) (fun r => (r.1,files r.2 1) = (files w 1).run tinyFileCalls)
      (runCalls w (fileCalls tinyFileCalls)) := by
  obtain ⟨w0,answers,w,made,ran,calm,first,second⟩ := tinyFiles_made
  have room : 1 + 1 < tinyDisk.nblocks := by decide
  obtain ⟨w0',made',_,_,_,fresh⟩ := mkfsStorage_spec (le_refl 1) room
  obtain rfl : w0' = w0 := Except.ok.inj (made'.symm.trans made)
  obtain ⟨_,_,free,numbers,h,_⟩ := runCalls_storage [.allocate,.allocate]
    (by simp [Call.Proper]) _ _ _ _ _ fresh ran
  have admits : (files w 1).Admits tinyFileCalls := by
    refine ⟨_,first,⟨by decide,by decide⟩,trivial,by decide,[],?_,⟨by decide,by decide⟩,trivial,
      by decide,(FileCall.spec [] (.write 3 none 7)).2,?_,(by decide : (0 : Int) ≤ 5),trivial,?_⟩
    · rw [Function.update_of_ne (by decide),second]
    · rw [Function.update_of_ne (by decide),Function.update_self]
    · exact ⟨by decide,trivial⟩
  exact ⟨w,admits,files_independent tinyFileCalls w free h calm admits⟩

/-- On that disk, a file that leaves one block. -/
def tinyFill : List Call := [.allocate,.allocate,.file 0 (.write 0 (some fun _ => 65) 300)]

set_option maxRecDepth 100000 in
theorem tinyFile_made : ∃ w0 answers w, mkfsStorage tinyDisk 1 = .ok w0 ∧
    runCalls w0 tinyFill = .ok (answers,w) ∧ w.exhausted = false ∧ 0 < inoGet w 0 ∧
    word (w.block (inoGet w 0)) Inode.size = 300 ∧ word (w.block 0) Superblock.freeBlocks = 1 := by
  have ran : (match mkfsStorage tinyDisk 1 with
      | .ok w0 => match runCalls w0 tinyFill with
        | .ok (_,w) => !w.exhausted && decide (0 < inoGet w 0) &&
          decide (word (w.block (inoGet w 0)) Inode.size = 300) &&
          decide (word (w.block 0) Superblock.freeBlocks = 1)
        | .error _ => false
      | .error _ => false) = true := by decide +kernel
  split at ran
  · rename_i w0 made
    split at ran
    · rename_i answers w calls
      simp only [Bool.and_eq_true,Bool.not_eq_true',decide_eq_true_eq] at ran
      exact ⟨w0,answers,w,made,calls,ran.1.1.1,ran.1.1.2,ran.1.2,ran.2⟩
    · cases ran
  · cases ran

theorem tinyFile_storage : ∃ w free numbers, Storage w 1 free numbers ∧ w.exhausted = false ∧
    0 < inoGet w 0 ∧ word (w.block (inoGet w 0)) Inode.size = 300 ∧ free.card = 1 := by
  obtain ⟨w0,answers,w,made,ran,calm,used,size,count⟩ := tinyFile_made
  have room : 1 + 1 < tinyDisk.nblocks := by decide
  obtain ⟨w0',made',_,_,_,fresh⟩ := mkfsStorage_spec (le_refl 1) room
  obtain rfl : w0' = w0 := Except.ok.inj (made'.symm.trans made)
  have proper : ∀ call ∈ tinyFill, call.Proper 1 := by
    rintro call (_ | ⟨_,_ | ⟨_,_ | ⟨_,none⟩⟩⟩)
    · exact trivial
    · exact trivial
    · exact ⟨by decide,.inl (le_refl 0),by decide⟩
    · cases none
  obtain ⟨_,_,free,numbers,h,_⟩ := runCalls_storage tinyFill proper _ _ _ _ _ fresh ran
  obtain ⟨nodes,list⟩ := h.list
  have counted := list.count
  rw [count] at counted
  exact ⟨w,free,numbers,h,calm,used,size,by exact_mod_cast counted.symm⟩

/-- A read from the second byte on, of as many bytes as an `ssize_t` can ask for, gets none. -/
theorem files_dependent : ∃ w free numbers, ∃ call : FileCall, Storage w 1 free numbers ∧
    w.exhausted = false ∧ (∃ file, files w 1 0 = some file ∧ file.length = 300 ∧ call.InRange ∧
      (call.spec file).2.length ≤ maxFilesize) ∧
    ¬Delivers (·.2.exhausted) (fun r => (r.1,files r.2 1) = (files w 1).run [(0,call)])
      (runCalls w (fileCalls [(0,call)])) := by
  obtain ⟨w,free,numbers,h,calm,used,size,_⟩ := tinyFile_storage
  have held := h.held (by decide : Numbered 1 0) used
  have length := length_contents (w := w) held.sizeNonneg
  rw [size] at length
  have isFile : files w 1 0 = some (contents w (w.block (inoGet w 0))) :=
    files_some.mpr ⟨by decide,used,rfl⟩
  have long : (contents w (w.block (inoGet w 0))).length = 300 := by omega
  obtain ⟨most,greatest⟩ : ∃ most : Int, most = 2 ^ 63 - 1 := ⟨_,rfl⟩
  have count : (ByteList.readAt (contents w (w.block (inoGet w 0))) (1 : Int).toNat most.toNat).length = 299 := by
    rw [ByteList.length_readAt,long]
    omega
  refine ⟨w,free,numbers,.read 1 (fun _ => 0) most,h,calm,⟨_,isFile,long,⟨by decide,by omega⟩,?_⟩,
    fun delivers => ?_⟩
  · rw [FileCall.spec,long]
    decide
  · have read := inodeRead_wrapped held (show (0 : Int) ≤ 1 by decide) (show 0 ≤ most by omega)
      (by decide) (by omega) (by omega) fun _ => 0
    have ran : runCalls w (fileCalls [(0,.read 1 (fun _ => 0) most)]) = .ok ([⟨0,[]⟩],w) := by
      simp only [fileCalls,List.map_cons,List.map_nil,runCalls,Call.run,FileCall.run,read,ok_bind]
      rfl
    have told : (([⟨0,[]⟩] : List Answer),files w 1) = (files w 1).run [(0,.read 1 (fun _ => 0) most)] :=
      delivers.result _ ran calm
    simp only [Files.run,isFile,FileCall.spec,Prod.mk.injEq,List.cons.injEq,Answer.mk.injEq,count] at told
    exact absurd told.1.1.1 (by decide)

end CandyFs
