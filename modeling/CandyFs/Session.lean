import CandyFs.Candy

/-! Sessions: requests one after the other on the store, and the files that are open between them. The
store loses nothing when a file cannot grow, takes any size and finds nothing behind a handle without a
directory, and references are counted without end.
-/
namespace CandyFs
open Bytes

/-- The requests that open, close or change something. -/
inductive FuseRequest where
  | mkdir (path : Name) (mode : Nat)
  | unlink (path : Name)
  | rmdir (path : Name)
  | symlink (linkname path : Name)
  | rename (oldpath newpath : Name)
  | link (oldpath newpath : Name)
  | chmod (path : Name) (mode : Nat)
  | chown (path : Name) (user group : Nat)
  | truncate (path : Name) (size : Int)
  | open' (path : Name) (flags : Nat)
  | write (fh offset : Int) (buf : Option Block) (size : Int) (flags : Nat)
  | release (fh : Int)
  | opendir (path : Name) (flags : Nat)
  | releasedir (fh : Int)
  | access (path : Name) (flags : Nat)
  | create (path : Name) (mode : Nat)
  | ftruncate (fh size : Int)
  | utimens (path : Name)

section
variable [Geometry]

/-- A request that opens no file. -/
def unopened (call : Act Int) : Act (Int × Option Int) := do
  let res ← call
  pure (res,none)

/-- The answer to a request of a user, and the file that it opens. -/
def FuseRequest.serve (user group : Nat) : FuseRequest → Act (Int × Option Int)
  | mkdir path mode => unopened (candyMkdir user group path mode)
  | unlink path => unopened (candyUnlink user group path)
  | rmdir path => unopened (candyRmdir user group path)
  | symlink linkname path => unopened (candySymlink user group linkname path)
  | rename oldpath newpath => unopened (candyRename user group oldpath newpath)
  | link oldpath newpath => unopened (candyLink user group oldpath newpath)
  | chmod path mode => unopened (candyChmod user group path mode)
  | chown path newuser newgroup => unopened (candyChown user group path newuser newgroup)
  | truncate path size => unopened (candyTruncate user group path size)
  | open' path flags => candyOpen user group path flags
  | write fh offset buf size flags => unopened (candyWrite fh offset buf size flags)
  | release fh => unopened (candyRelease fh)
  | opendir path flags => candyOpendir user group path flags
  | releasedir fh => unopened (candyReleasedir fh)
  | access path flags => unopened (candyAccess user group path flags)
  | create path mode => candyCreate user group path mode
  | ftruncate fh size => unopened (candyFtruncate fh size)
  | utimens path => unopened (candyUtimens user group path)

/-- What the kernel promises: names are strings, and files are open. -/
def FuseRequest.Proper (fhs : Multiset Int) : FuseRequest → Prop
  | mkdir path _ | unlink path | rmdir path | symlink _ path | link _ path | create path _ => 0 ∉ path
  | rename oldpath newpath => 0 ∉ oldpath ∧ 0 ∉ newpath
  | write fh .. | release fh | releasedir fh | ftruncate fh _ => fh ∈ fhs
  | chmod .. | chown .. | truncate .. | open' .. | opendir .. | access .. | utimens .. => True

/-- The open files afterwards. -/
def FuseRequest.left (fhs : Multiset Int) (fh : Option Int) : FuseRequest → Multiset Int
  | release fh | releasedir fh => fhs.erase fh
  | _ => fh.elim fhs (· ::ₘ fhs)

/-- From a file system to another, by requests that come to an end. -/
inductive Session (fs0 : Fs) : Fs → Multiset Int → Prop where
  | start : Session fs0 fs0 0
  | step {fs fs' : Fs} {fhs : Multiset Int} {res : Int} {fh : Option Int} (before : Session fs0 fs fhs)
      (request : FuseRequest) (user group : Nat) (proper : request.Proper fhs)
      (ran : request.serve user group fs = .ok ((res,fh),fs')) : Session fs0 fs' (request.left fhs fh)

end

section
open Triple
variable [Geometry] {fs fs' : Fs} {s : Store} {fhs : Multiset Int} {fh : Int} {request : FuseRequest} {call : Act Int}

theorem Serving.unopened (yields : Yields call fs fun _ fs' => Serving fs' fhs) :
    Yields (unopened call) fs fun answer fs' => Serving fs' (answer.2.elim fhs (· ::ₘ fhs)) :=
  yields.bind fun _ _ after => .pure after

theorem Serving.released (serving : Serving fs fhs) (member : fh ∈ fhs) :
    ∃ fs', CandyFs.candyRelease fh fs = .ok (0,fs') ∧ Serving fs' (fhs.erase fh) := by
  rw [← Multiset.cons_erase member] at serving
  exact serving.candyRelease

theorem Serving.serve (serving : Serving fs fhs) (proper : request.Proper fhs) (user group : Nat) :
    Yields (request.serve user group) fs fun answer fs' => Serving fs' (request.left fhs answer.2) := by
  have releases {fh : Int} (member : fh ∈ fhs) :
      Yields (CandyFs.unopened (CandyFs.candyRelease fh)) fs fun _ fs' => Serving fs' (fhs.erase fh) := by
    obtain ⟨fs',ran,after⟩ := serving.released member
    exact .follow ran (.pure after)
  cases request with
  | mkdir => exact .unopened (serving.candyMkdir proper)
  | unlink => exact .unopened (serving.candyUnlink proper)
  | rmdir => exact .unopened (serving.candyRmdir proper)
  | symlink => exact .unopened (serving.candySymlink proper)
  | rename => exact .unopened (serving.candyRename proper.1 proper.2)
  | link => exact .unopened (serving.candyLink proper)
  | chmod => exact .unopened serving.candyChmod
  | chown => exact .unopened serving.candyChown
  | truncate => exact .unopened serving.candyTruncate
  | open' path flags => exact serving.openNode _ flags
  | write => exact .unopened (serving.candyWrite proper)
  | release => exact releases proper
  | opendir path flags => exact serving.openNode _ flags
  | releasedir => exact releases proper
  | access => exact .unopened serving.candyAccess
  | create => exact serving.candyCreate proper
  | ftruncate => exact .unopened (serving.truncateTo proper _)
  | utimens => exact .unopened serving.candyUtimens

theorem Session.serving (serving : Serving fs 0) (session : Session fs fs' fhs) : Serving fs' fhs := by
  induction session with
  | start => exact serving
  | step before request user group proper ran ih => exact ih.serve proper user group _ _ ran

theorem Serving.start (blank : Blank s) {owner group : Nat}
    (made : mkfsPath owner group (Fs.closed s) = .ok (0,fs)) : Serving fs 0 := by
  rcases mkfsPath_start blank owner group with ⟨_,broke⟩ | ⟨_,fs',made',sane,_,paths⟩
  · rw [broke] at made
    cases made
  rw [made] at made'
  cases made'
  have unopened (path : Int) (node : OpenPathNode) : fs.path path ≠ some node := by
    rw [paths]
    exact (Option.some_ne_none node).symm
  refine ⟨sane,fun path node opened => absurd opened (unopened path node),
    fun path _ node _ _ opened => absurd opened (unopened path node),fun n none => absurd none (Multiset.notMem_zero n),
    fun n _ => ?_⟩
  have none : fs.handles n = 0 := by
    rw [Fs.handles,Finset.card_eq_zero,Finset.filter_eq_empty_iff]
    rintro k member ⟨used,_⟩
    refine unopened k (fs.openPathTable k) (path_some.mpr ⟨Int.natCast_nonneg k,?_,used,rfl⟩)
    exact_mod_cast Finset.mem_range.mp member
  rw [none]
  exact Nat.zero_le _

theorem session_serves (blank : Blank s) {owner group : Nat}
    (made : mkfsPath owner group (Fs.closed s) = .ok (0,fs)) (session : Session fs fs' fhs) :
    Serving fs' fhs := session.serving (.start blank made)

/-- An open file can be closed at any time, and the others stay open and on the disk. -/
theorem session_releases (blank : Blank s) {owner group : Nat}
    (made : mkfsPath owner group (Fs.closed s) = .ok (0,fs)) (session : Session fs fs' fhs) (member : fh ∈ fhs) :
    ∃ fs'', candyRelease fh fs' = .ok (0,fs'') ∧ Sane fs'' ∧ ∀ other ∈ fhs.erase fh,
      (fhs.erase fh).count other ≤ fs''.opens other ∧ fs''.store.inode other ≠ none := by
  obtain ⟨fs'',ran,after⟩ := (session.serving (.start blank made)).released member
  refine ⟨fs'',ran,after.sane,fun other still => ⟨?_,?_⟩⟩
  · exact (Nat.le_add_left _ _).trans (after.held other (after.named other still))
  · exact object_some.mp (after.sane.valid.opened other (after.opens still))

end

end CandyFs
