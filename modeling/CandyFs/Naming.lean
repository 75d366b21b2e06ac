import Mathlib.Data.Set.Card
import Mathlib.Logic.Relation

/-! Nodes that give names to nodes. A node that does is a directory, and has two names besides: one for
itself and one for the directory above it.
-/
namespace CandyFs.Naming

/-- What each node calls what. -/
abbrev Names (Node Name : Type*) := Node → Name → Option Node

/-- The names of a directory for itself and for the one above it. -/
structure Dots (Name : Type*) where
  here : Name
  up : Name
  differ : here ≠ up

section
variable {Node Name : Type*} (dots : Dots Name) (f : Names Node Name)

def IsDir (d : Node) : Prop := f d dots.up ≠ none

/-- A name that is none of the two. -/
structure Child (d : Node) (name : Name) (t : Node) : Prop where
  names : f d name = some t
  here : name ≠ dots.here
  up : name ≠ dots.up

/-- Nothing is named in it besides. -/
def Childless (d : Node) : Prop := ∀ name t, ¬Child dots f d name t

/-- Every directory but the root is named by the one above it, once and by no other. A circle of
directories that the root does not reach is not ruled out. -/
structure Rooted (top : Node) : Prop where
  only : ∀ d name t, f d name = some t → IsDir dots f d
  self : ∀ d, IsDir dots f d → f d dots.here = some d
  above : ∀ d p, f d dots.up = some p → IsDir dots f p
  root : f top dots.up = some top
  below : ∀ d name t, Child dots f d name t → IsDir dots f t → t ≠ top ∧ f t dots.up = some d
  once : ∀ d name name' t, Child dots f d name t → Child dots f d name' t → IsDir dots f t → name = name'
  listed : ∀ d p, f d dots.up = some p → d ≠ top → ∃ name, Child dots f p name d

/-- The names for a node besides the two. -/
def links (t : Node) : Set (Node × Name) := {e | Child dots f e.1 e.2 t}

/-- How many names there are for each node, with those that are counted for other reasons. -/
def Counts (others count : Node → Nat) : Prop := ∀ t, (links dots f t).encard + others t = count t

/-- One directory is another or some way above it. -/
def Above (d a : Node) : Prop := Relation.ReflTransGen (fun x y => f x dots.up = some y) d a

/-- All directories are somewhere below the root. -/
def Connected (root : Node) : Prop := ∀ d, IsDir dots f d → Above dots f d root

/-- A way down from the root, the last name first. -/
inductive Path (root : Node) : List Name → Node → Prop where
  | root : Path root [] root
  | child {path : List Name} {d t : Node} {name : Name} (before : Path root path d)
      (names : Child dots f d name t) : Path root (name :: path) t

variable [DecidableEq Node] [DecidableEq Name] (d : Node) (name : Name) (t : Node)

def bind : Names Node Name := Function.update f d (Function.update (f d) name (some t))

def unbind : Names Node Name := Function.update f d (Function.update (f d) name none)

/-- The name is removed, and the names that `t` gives are. -/
def remove : Names Node Name := unbind (Function.update f t fun _ => none) d name

/-- A new directory. -/
def mkdir : Names Node Name := bind (Function.update f t fun n =>
  if n = dots.here then some t else if n = dots.up then some d else none) d name t

/-- One name instead of another. -/
def rename (src : Node) (srcname : Name) : Names Node Name := unbind (bind f d name t) src srcname

/-- One name instead of another for a directory. -/
def move (src : Node) (srcname : Name) : Names Node Name :=
  bind (rename f d name t src srcname) t dots.up d

end

section
variable {Node Name : Type*} {dots : Dots Name} {f g : Names Node Name} {root d d' t t' p x src : Node}
  {name n srcname : Name}

theorem Rooted.leaves (rooted : Rooted dots f root) (only : ∀ x n t, g x n = some t → IsDir dots f x)
    (here : ∀ x, g x dots.here = f x dots.here) (up : ∀ x, g x dots.up = f x dots.up)
    (children : ∀ x n t, IsDir dots f t → (Child dots g x n t ↔ Child dots f x n t)) :
    Rooted dots g root := by
  have dir (x : Node) : IsDir dots g x ↔ IsDir dots f x := by rw [IsDir,IsDir,up]
  constructor
  · exact fun x n t names => (dir x).mpr (only x n t names)
  · exact fun x isDir => (here x).trans (rooted.self x ((dir x).mp isDir))
  · exact fun x p names => (dir p).mpr (rooted.above x p ((up x).symm.trans names))
  · exact (up root).trans rooted.root
  · intro x n t child isDir
    have isDir := (dir t).mp isDir
    rw [up]
    exact rooted.below x n t ((children x n t isDir).mp child) isDir
  · intro x n n' t child child' isDir
    have isDir := (dir t).mp isDir
    exact rooted.once x n n' t ((children x n t isDir).mp child) ((children x n' t isDir).mp child') isDir
  · intro x p names differ
    rw [up] at names
    obtain ⟨n,child⟩ := rooted.listed x p names differ
    exact ⟨n,(children p n x (by rw [IsDir,names]; exact Option.some_ne_none _)).mpr child⟩

theorem Rooted.root_dir (rooted : Rooted dots f root) : IsDir dots f root := by
  rw [IsDir,rooted.root]
  exact Option.some_ne_none _

theorem Rooted.not_root (rooted : Rooted dots f root) (child : Child dots f d name t) : t ≠ root := by
  rintro rfl
  exact (rooted.below d name t child rooted.root_dir).1 rfl

theorem Rooted.named (rooted : Rooted dots f root) (dir : IsDir dots f d) (free : f d name = none) :
    name ≠ dots.here ∧ name ≠ dots.up := by
  constructor
  · rintro rfl
    rw [rooted.self d dir] at free
    cases free
  · rintro rfl
    exact dir free

theorem Rooted.unique (rooted : Rooted dots f root) (child : Child dots f d name t)
    (child' : Child dots f x n t) (dir : IsDir dots f t) : x = d ∧ n = name := by
  obtain ⟨_,above⟩ := rooted.below d name t child dir
  obtain ⟨_,above'⟩ := rooted.below x n t child' dir
  obtain rfl : d = x := Option.some.inj (above.symm.trans above')
  exact ⟨rfl,rooted.once d n name t child' child dir⟩

theorem Rooted.not_childless (rooted : Rooted dots f root) (above : f x dots.up = some p)
    (differ : p ≠ root) : ¬Childless dots f p := by
  intro childless
  by_cases top : x = root
  · rw [top,rooted.root,Option.some.injEq] at above
    exact differ above.symm
  · obtain ⟨n,named⟩ := rooted.listed x p above top
    exact childless n x named

theorem Connected.same (up : ∀ x, g x dots.up = f x dots.up) (connected : Connected dots f root) :
    Connected dots g root := by
  intro x dir
  rw [IsDir,up] at dir
  simpa only [Above,up] using connected x dir

section
variable [DecidableEq Node] [DecidableEq Name]

theorem bind_apply : bind f d name t x n = if x = d ∧ n = name then some t else f x n := by
  by_cases same : x = d
  · subst same
    simp [bind,Function.update_apply]
  · simp [bind,same]

theorem unbind_apply : unbind f d name x n = if x = d ∧ n = name then none else f x n := by
  by_cases same : x = d
  · subst same
    simp [unbind,Function.update_apply]
  · simp [unbind,same]

theorem remove_apply : remove f d name t x n =
    if x = d ∧ n = name then none else if x = t then none else f x n := by
  rw [remove,unbind_apply]
  by_cases same : x = t
  · subst same
    simp
  · simp [same]

theorem mkdir_apply : mkdir dots f d name t x n = if x = d ∧ n = name then some t
    else if x = t then if n = dots.here then some t else if n = dots.up then some d else none
    else f x n := by
  rw [mkdir,bind_apply]
  by_cases same : x = t
  · subst same
    simp
  · simp [same]

theorem rename_apply : rename f d name t src srcname x n = if x = src ∧ n = srcname then none
    else if x = d ∧ n = name then some t else f x n := by
  rw [rename,unbind_apply,bind_apply]

theorem move_apply : move dots f d name t src srcname x n = if x = t ∧ n = dots.up then some d
    else rename f d name t src srcname x n := by
  rw [move,bind_apply]

theorem bind_up (up : name ≠ dots.up) : bind f d name t x dots.up = f x dots.up := by
  rw [bind_apply,if_neg fun both => up both.2.symm]

theorem remove_up (up : name ≠ dots.up) :
    remove f d name t x dots.up = if x = t then none else f x dots.up := by
  rw [remove_apply,if_neg fun both => up both.2.symm]

theorem mkdir_up (up : name ≠ dots.up) :
    mkdir dots f d name t x dots.up = if x = t then some d else f x dots.up := by
  rw [mkdir_apply,if_neg fun both => up both.2.symm,if_neg dots.differ.symm,if_pos rfl]

theorem rename_up (up : name ≠ dots.up) (srcup : srcname ≠ dots.up) :
    rename f d name t src srcname x dots.up = f x dots.up := by
  rw [rename_apply,if_neg fun both => srcup both.2.symm,if_neg fun both => up both.2.symm]

theorem move_up (up : name ≠ dots.up) (srcup : srcname ≠ dots.up) :
    move dots f d name t src srcname x dots.up = if x = t then some d else f x dots.up := by
  rw [move_apply,rename_up up srcup]
  simp

theorem child_bind (free : f d name = none) (here : name ≠ dots.here) (up : name ≠ dots.up) :
    Child dots (bind f d name t) x n t' ↔ (x = d ∧ n = name ∧ t' = t) ∨ Child dots f x n t' := by
  constructor
  · rintro ⟨names,here',up'⟩
    rw [bind_apply] at names
    split at names
    · rename_i same
      exact .inl ⟨same.1,same.2,(Option.some.inj names).symm⟩
    · exact .inr ⟨names,here',up'⟩
  · rintro (⟨rfl,rfl,rfl⟩ | ⟨names,here',up'⟩)
    · exact ⟨by rw [bind_apply,if_pos ⟨rfl,rfl⟩],here,up⟩
    · refine ⟨?_,here',up'⟩
      rw [bind_apply,if_neg,names]
      rintro ⟨rfl,rfl⟩
      rw [free] at names
      cases names

theorem child_unbind : Child dots (unbind f d name) x n t' ↔
    Child dots f x n t' ∧ ¬(x = d ∧ n = name) := by
  constructor
  · rintro ⟨names,here,up⟩
    rw [unbind_apply] at names
    split at names
    · cases names
    · exact ⟨⟨names,here,up⟩,‹_›⟩
  · rintro ⟨⟨names,here,up⟩,other⟩
    exact ⟨by rw [unbind_apply,if_neg other,names],here,up⟩

theorem child_remove (childless : Childless dots f t) : Child dots (remove f d name t) x n t' ↔
    Child dots f x n t' ∧ ¬(x = d ∧ n = name) := by
  rw [remove,child_unbind]
  refine and_congr_left' ⟨fun ⟨names,here,up⟩ => ?_,fun child => ⟨?_,child.here,child.up⟩⟩
  · rw [Function.update_apply] at names
    split at names
    · cases names
    · exact ⟨names,here,up⟩
  · rw [Function.update_of_ne,child.names]
    rintro rfl
    exact childless n t' child

theorem child_mkdir (rooted : Rooted dots f root) (dir : IsDir dots f d) (free : f d name = none)
    (plain : ¬IsDir dots f t) : Child dots (mkdir dots f d name t) x n t' ↔
      (x = d ∧ n = name ∧ t' = t) ∨ Child dots f x n t' := by
  obtain ⟨here,up⟩ := rooted.named dir free
  have apart : d ≠ t := fun same => plain (same ▸ dir)
  rw [mkdir,child_bind (by rw [Function.update_of_ne apart,free]) here up]
  refine or_congr_right ⟨fun ⟨names,here',up'⟩ => ?_,fun ⟨names,here',up'⟩ => ⟨?_,here',up'⟩⟩
  · rw [Function.update_apply] at names
    split at names
    · dsimp only at names
      rw [if_neg here',if_neg up'] at names
      cases names
    · exact ⟨names,here',up'⟩
  · rw [Function.update_of_ne,names]
    rintro rfl
    exact plain (rooted.only x n t' names)

theorem child_rename (child : Child dots f src srcname t) (free : f d name = none)
    (here : name ≠ dots.here) (up : name ≠ dots.up) :
    Child dots (rename f d name t src srcname) x n t' ↔
      (x = d ∧ n = name ∧ t' = t) ∨ Child dots f x n t' ∧ ¬(x = src ∧ n = srcname) := by
  rw [rename,child_unbind,child_bind free here up,or_and_right]
  refine or_congr_left (and_iff_left_of_imp ?_)
  rintro ⟨rfl,rfl,rfl⟩ ⟨rfl,rfl⟩
  rw [child.names] at free
  cases free

theorem child_move : Child dots (move dots f d name t src srcname) x n t' ↔
    Child dots (rename f d name t src srcname) x n t' := by
  constructor
  · rintro ⟨names,here,up⟩
    rw [move_apply,if_neg fun both => up both.2] at names
    exact ⟨names,here,up⟩
  · rintro ⟨names,here,up⟩
    exact ⟨by rw [move_apply,if_neg fun both => up both.2,names],here,up⟩

theorem Rooted.bind (rooted : Rooted dots f root) (dir : IsDir dots f d) (free : f d name = none)
    (plain : ¬IsDir dots f t) : Rooted dots (Naming.bind f d name t) root := by
  obtain ⟨here,up⟩ := rooted.named dir free
  refine rooted.leaves (fun x n t' names => ?_) (fun x => ?_) (fun x => bind_up up) fun x n t' isDir => ?_
  · rw [bind_apply] at names
    split at names
    · rename_i same
      exact same.1 ▸ dir
    · exact rooted.only x n t' names
  · rw [bind_apply,if_neg fun both => here both.2.symm]
  · rw [child_bind free here up]
    refine ⟨fun child => child.resolve_left ?_,.inr⟩
    rintro ⟨_,_,rfl⟩
    exact plain isDir

theorem Rooted.rename (rooted : Rooted dots f root) (dir : IsDir dots f d) (free : f d name = none)
    (plain : ¬IsDir dots f t) (child : Child dots f src srcname t) :
    Rooted dots (Naming.rename f d name t src srcname) root := by
  obtain ⟨here,up⟩ := rooted.named dir free
  refine rooted.leaves (fun x n t' names => ?_) (fun x => ?_) (fun x => rename_up up child.up)
    fun x n t' isDir => ?_
  · rw [rename_apply] at names
    split at names
    · cases names
    split at names
    · rename_i same
      exact same.1 ▸ dir
    · exact rooted.only x n t' names
  · rw [rename_apply,if_neg fun both => child.here both.2.symm,if_neg fun both => here both.2.symm]
  · rw [child_rename child free here up]
    constructor
    · rintro (⟨_,_,rfl⟩ | ⟨old,_⟩)
      · exact absurd isDir plain
      · exact old
    · refine fun old => .inr ⟨old,?_⟩
      rintro ⟨rfl,rfl⟩
      exact plain (Option.some.inj (old.names.symm.trans child.names) ▸ isDir)

theorem Rooted.remove (rooted : Rooted dots f root) (child : Child dots f d name t)
    (childless : Childless dots f t) : Rooted dots (Naming.remove f d name t) root := by
  have dir (x : Node) : IsDir dots (Naming.remove f d name t) x ↔ x ≠ t ∧ IsDir dots f x := by
    rw [IsDir,remove_up child.up]
    split
    · simp [*]
    · simp [*,IsDir]
  have children {x : Node} {n : Name} {t' : Node} : Child dots (Naming.remove f d name t) x n t' ↔ _ :=
    child_remove childless
  constructor
  · intro x n t' names
    rw [remove_apply] at names
    split at names
    · cases names
    split at names
    · cases names
    · exact (dir x).mpr ⟨‹_›,rooted.only x n t' names⟩
  · intro x isDir
    obtain ⟨differ,isDir⟩ := (dir x).mp isDir
    rw [remove_apply,if_neg fun both => child.here both.2.symm,if_neg differ]
    exact rooted.self x isDir
  · intro x p names
    rw [remove_up child.up] at names
    split at names
    · cases names
    refine (dir p).mpr ⟨?_,rooted.above x p names⟩
    rintro rfl
    exact rooted.not_childless names (rooted.not_root child) childless
  · rw [remove_up child.up,if_neg (rooted.not_root child).symm,rooted.root]
  · intro x n t' named isDir
    obtain ⟨differ,isDir⟩ := (dir t').mp isDir
    rw [remove_up child.up,if_neg differ]
    exact rooted.below x n t' (children.mp named).1 isDir
  · intro x n n' t' named named' isDir
    exact rooted.once x n n' t' (children.mp named).1 (children.mp named').1 ((dir t').mp isDir).2
  · intro x p names differ
    rw [remove_up child.up] at names
    split at names
    · cases names
    rename_i other
    obtain ⟨n,named⟩ := rooted.listed x p names differ
    refine ⟨n,children.mpr ⟨named,?_⟩⟩
    rintro ⟨rfl,rfl⟩
    exact other (Option.some.inj (named.names.symm.trans child.names))

theorem Rooted.mkdir (rooted : Rooted dots f root) (dir : IsDir dots f d) (free : f d name = none)
    (plain : ¬IsDir dots f t) (unused : ∀ x n, f x n ≠ some t) :
    Rooted dots (Naming.mkdir dots f d name t) root := by
  obtain ⟨here,up⟩ := rooted.named dir free
  have top : root ≠ t := fun same => plain (same ▸ rooted.root_dir)
  have isDir (x : Node) : IsDir dots (Naming.mkdir dots f d name t) x ↔ x = t ∨ IsDir dots f x := by
    rw [IsDir,mkdir_up up]
    split
    · simp [*]
    · simp [*,IsDir]
  have children {x : Node} {n : Name} {t' : Node} : Child dots (Naming.mkdir dots f d name t) x n t' ↔ _ :=
    child_mkdir rooted dir free plain
  have other {x : Node} {n : Name} {t' : Node} (old : Child dots f x n t') : t' ≠ t := by
    rintro rfl
    exact unused x n old.names
  constructor
  · intro x n t' names
    rw [isDir]
    rw [mkdir_apply] at names
    split at names
    · rename_i same
      exact .inr (same.1 ▸ dir)
    split at names
    · exact .inl ‹_›
    · exact .inr (rooted.only x n t' names)
  · intro x dir'
    rw [mkdir_apply,if_neg fun both => here both.2.symm,if_pos rfl]
    split
    · rename_i same
      rw [same]
    · exact rooted.self x (((isDir x).mp dir').resolve_left ‹_›)
  · intro x p names
    rw [mkdir_up up] at names
    split at names
    · cases names
      exact (isDir d).mpr (.inr dir)
    · exact (isDir p).mpr (.inr (rooted.above x p names))
  · rw [mkdir_up up,if_neg top,rooted.root]
  · intro x n t' child dir'
    rw [mkdir_up up]
    rcases children.mp child with ⟨rfl,rfl,rfl⟩ | old
    · exact ⟨top.symm,if_pos rfl⟩
    · rw [if_neg (other old)]
      exact rooted.below x n t' old (((isDir t').mp dir').resolve_left (other old))
  · intro x n n' t' child child' dir'
    rcases children.mp child with ⟨rfl,rfl,rfl⟩ | old
    · rcases children.mp child' with ⟨_,rfl,_⟩ | old'
      · rfl
      · exact absurd rfl (other old')
    · rcases children.mp child' with ⟨rfl,rfl,rfl⟩ | old'
      · exact absurd rfl (other old)
      · exact rooted.once x n n' t' old old' (((isDir t').mp dir').resolve_left (other old))
  · intro x p names differ
    rw [mkdir_up up] at names
    split at names
    · cases names
      exact ⟨name,children.mpr (.inl ⟨rfl,rfl,‹_›⟩)⟩
    · obtain ⟨n,child⟩ := rooted.listed x p names differ
      exact ⟨n,children.mpr (.inr child)⟩

theorem Rooted.move (rooted : Rooted dots f root) (dir : IsDir dots f d) (free : f d name = none)
    (moved : IsDir dots f t) (child : Child dots f src srcname t) :
    Rooted dots (Naming.move dots f d name t src srcname) root := by
  obtain ⟨here,up⟩ := rooted.named dir free
  have isDir (x : Node) : IsDir dots (Naming.move dots f d name t src srcname) x ↔ IsDir dots f x := by
    rw [IsDir,move_up up child.up]
    split
    · rename_i same
      rw [same]
      exact iff_of_true (Option.some_ne_none _) moved
    · rfl
  have children {x : Node} {n : Name} {t' : Node} :
      Child dots (Naming.move dots f d name t src srcname) x n t' ↔ _ :=
    child_move.trans (child_rename child free here up)
  constructor
  · intro x n t' names
    rw [isDir]
    rw [move_apply] at names
    split at names
    · rename_i same
      exact same.1 ▸ moved
    rw [rename_apply] at names
    split at names
    · cases names
    split at names
    · rename_i same
      exact same.1 ▸ dir
    · exact rooted.only x n t' names
  · intro x dir'
    rw [move_apply,if_neg fun both => dots.differ both.2,rename_apply,
      if_neg fun both => child.here both.2.symm,if_neg fun both => here both.2.symm]
    exact rooted.self x ((isDir x).mp dir')
  · intro x p names
    rw [isDir]
    rw [move_up up child.up] at names
    split at names
    · cases names
      exact dir
    · exact rooted.above x p names
  · rw [move_up up child.up,if_neg (rooted.not_root child).symm,rooted.root]
  · intro x n t' named dir'
    rw [isDir] at dir'
    rw [move_up up child.up]
    rcases children.mp named with ⟨rfl,rfl,rfl⟩ | ⟨old,differ⟩
    · exact ⟨rooted.not_root child,if_pos rfl⟩
    · rw [if_neg]
      · exact rooted.below x n t' old dir'
      · rintro rfl
        exact differ (rooted.unique child old moved)
  · intro x n n' t' named named' dir'
    rw [isDir] at dir'
    rcases children.mp named with ⟨rfl,rfl,rfl⟩ | ⟨old,differ⟩
    · rcases children.mp named' with ⟨_,rfl,_⟩ | ⟨old',differ'⟩
      · rfl
      · exact absurd (rooted.unique child old' moved) differ'
    · rcases children.mp named' with ⟨rfl,rfl,rfl⟩ | ⟨old',_⟩
      · exact absurd (rooted.unique child old moved) differ
      · exact rooted.once x n n' t' old old' dir'
  · intro x p names top
    rw [move_up up child.up] at names
    split at names
    · cases names
      exact ⟨name,children.mpr (.inl ⟨rfl,rfl,‹_›⟩)⟩
    · rename_i differ
      obtain ⟨n,named⟩ := rooted.listed x p names top
      refine ⟨n,children.mpr (.inr ⟨named,?_⟩)⟩
      rintro ⟨rfl,rfl⟩
      exact differ (Option.some.inj (named.names.symm.trans child.names))

section
variable {others count : Node → Nat}

omit [DecidableEq Node] [DecidableEq Name] in
theorem Counts.pos (counts : Counts dots f others count) (child : Child dots f d name t) : 0 < count t := by
  have some : (links dots f t).encard ≠ 0 := Set.encard_ne_zero.mpr ⟨(d,name),child⟩
  have total := counts t
  by_contra none
  rw [Nat.eq_zero_of_not_pos none,Nat.cast_zero,add_eq_zero] at total
  exact some total.1

omit [DecidableEq Node] [DecidableEq Name] in
theorem Counts.congr {count' : Node → Nat} (counts : Counts dots f others count)
    (children : ∀ x n t, Child dots g x n t ↔ Child dots f x n t) (same : ∀ t, count' t = count t) :
    Counts dots g others count' := by
  intro t
  rw [same,← counts t]
  congr 2
  ext e
  exact children e.1 e.2 t

omit [DecidableEq Name] in
theorem Counts.more (counts : Counts dots f others count) (free : ¬Child dots f d name t)
    (children : ∀ x n t', Child dots g x n t' ↔ (x = d ∧ n = name ∧ t' = t) ∨ Child dots f x n t') :
    Counts dots g others (Function.update count t (count t + 1)) := by
  intro t'
  by_cases same : t' = t
  · subst same
    have more : links dots g t' = insert (d,name) (links dots f t') := by
      ext ⟨x,n⟩
      rw [Set.mem_insert_iff,Prod.mk.injEq]
      exact (children x n t').trans (by simp [links])
    have fresh : (d,name) ∉ links dots f t' := free
    rw [more,Set.encard_insert_of_notMem fresh,Function.update_self,Nat.cast_add,← counts t',
      Nat.cast_one,add_right_comm]
  · rw [Function.update_of_ne same,← counts t']
    congr 2
    ext ⟨x,n⟩
    refine (children x n t').trans (or_iff_right ?_)
    rintro ⟨_,_,rfl⟩
    exact same rfl

omit [DecidableEq Name] in
theorem Counts.less (counts : Counts dots f others count) (child : Child dots f d name t)
    (children : ∀ x n t', Child dots g x n t' ↔ Child dots f x n t' ∧ ¬(x = d ∧ n = name)) :
    Counts dots g others (Function.update count t (count t - 1)) := by
  intro t'
  have rest : links dots g t' = links dots f t' \ {(d,name)} := by
    ext ⟨x,n⟩
    rw [Set.mem_sdiff,Set.mem_singleton_iff,Prod.mk.injEq]
    exact children x n t'
  by_cases same : t' = t
  · subst same
    have less : (links dots g t').encard + 1 = (links dots f t').encard := by
      rw [rest]
      exact Set.encard_sdiff_singleton_add_one child
    have total : (links dots g t').encard + others t' + 1 = count t' := by
      rw [← counts t',← less,add_right_comm]
    have pos := counts.pos child
    obtain ⟨k,split⟩ : ∃ k, count t' = k + 1 := ⟨count t' - 1,by omega⟩
    rw [split,Nat.cast_add,Nat.cast_one] at total
    rw [Function.update_self,split,Nat.add_sub_cancel]
    exact (ENat.add_left_injective_of_ne_top ENat.one_ne_top) total
  · rw [Function.update_of_ne same,← counts t',rest,Set.sdiff_singleton_eq_self]
    intro (member : Child dots f d name t')
    exact same (Option.some.inj (member.names.symm.trans child.names))

theorem Counts.rename (counts : Counts dots f others count) (child : Child dots f src srcname t)
    (free : f d name = none) (here : name ≠ dots.here) (up : name ≠ dots.up) :
    Counts dots (Naming.rename f d name t src srcname) others count := by
  have fresh : ¬Child dots f d name t := fun named => by
    rw [named.names] at free
    cases free
  have more := counts.more fresh (g := Naming.bind f d name t) fun _ _ _ => child_bind free here up
  have less := more.less (g := Naming.rename f d name t src srcname)
    ((child_bind free here up).mpr (.inr child)) fun _ _ _ => child_unbind
  refine less.congr (fun _ _ _ => Iff.rfl) fun t' => ?_
  rw [Function.update_self,Nat.add_sub_cancel,Function.update_idem,Function.update_eq_self]

end

theorem Above.remove (above : Above dots f x p) (rooted : Rooted dots f root)
    (child : Child dots f d name t) (childless : Childless dots f t) (other : x ≠ t) :
    Above dots (Naming.remove f d name t) x p := by
  induction above using Relation.ReflTransGen.head_induction_on with
  | refl => exact .refl
  | head step _ ih =>
    refine .head (by rw [remove_up child.up,if_neg other,step]) (ih ?_)
    rintro rfl
    exact rooted.not_childless step (rooted.not_root child) childless

theorem above_remove (rooted : Rooted dots f root) (child : Child dots f d name t)
    (childless : Childless dots f t) (other : x ≠ t) :
    Above dots (Naming.remove f d name t) x p ↔ Above dots f x p := by
  refine ⟨fun above => ?_,fun above => above.remove rooted child childless other⟩
  induction above using Relation.ReflTransGen.head_induction_on with
  | refl => exact .refl
  | @head y z step _ ih =>
    rw [remove_up child.up,if_neg other] at step
    refine .head step (ih ?_)
    rintro rfl
    exact rooted.not_childless step (rooted.not_root child) childless

theorem Connected.remove (connected : Connected dots f root) (rooted : Rooted dots f root)
    (child : Child dots f d name t) (childless : Childless dots f t) :
    Connected dots (Naming.remove f d name t) root := by
  intro x dir
  rw [IsDir,remove_up child.up] at dir
  have other : x ≠ t := by
    rintro rfl
    exact dir (if_pos rfl)
  rw [if_neg other] at dir
  exact (connected x dir).remove rooted child childless other

theorem Connected.mkdir (connected : Connected dots f root) (rooted : Rooted dots f root)
    (dir : IsDir dots f d) (free : f d name = none) (plain : ¬IsDir dots f t) :
    Connected dots (Naming.mkdir dots f d name t) root := by
  obtain ⟨_,up⟩ := rooted.named dir free
  have old {x : Node} (above : Above dots f x root) :
      Above dots (Naming.mkdir dots f d name t) x root := by
    induction above using Relation.ReflTransGen.head_induction_on with
    | refl => exact .refl
    | @head x y step _ ih =>
      refine .head ?_ ih
      rw [mkdir_up up,if_neg,step]
      rintro rfl
      exact plain (by rw [IsDir,step]; exact Option.some_ne_none _)
  intro x dir'
  rw [IsDir,mkdir_up up] at dir'
  by_cases new : x = t
  · exact .head (by rw [mkdir_up up,if_pos new]) (old (connected d dir))
  · rw [if_neg new] at dir'
    exact old (connected x dir')

/-- Moving a directory keeps the directories together just when it does not go below itself. -/
theorem Connected.move (connected : Connected dots f root) (rooted : Rooted dots f root)
    (dir : IsDir dots f d) (free : f d name = none) (moved : IsDir dots f t)
    (child : Child dots f src srcname t) :
    Connected dots (Naming.move dots f d name t src srcname) root ↔ ¬Above dots f d t := by
  obtain ⟨_,up⟩ := rooted.named dir free
  have ups (x : Node) : Naming.move dots f d name t src srcname x dots.up =
      if x = t then some d else f x dots.up := move_up up child.up
  constructor
  · intro connected' below
    have whole := connected' t (by rw [IsDir,ups,if_pos rfl]; exact Option.some_ne_none _)
    -- the way up from `t` goes round between `t` and `d`
    have round {x : Node} (above : Above dots (Naming.move dots f d name t src srcname) x root)
        (inside : Above dots f x t) : False := by
      induction above using Relation.ReflTransGen.head_induction_on with
      | refl =>
        have stays {y : Node} (above : Above dots f root y) : y = root := by
          induction above with
          | refl => rfl
          | tail _ step ih =>
            rw [ih,rooted.root,Option.some.injEq] at step
            exact step.symm
        exact rooted.not_root child (stays inside)
      | head step _ ih =>
        rw [ups] at step
        split at step
        · cases step
          exact ih below
        · rename_i differ
          rcases inside.cases_head with same | ⟨next,step',inside⟩
          · exact differ same
          · rw [step,Option.some.injEq] at step'
            exact ih (step' ▸ inside)
    exact round whole .refl
  · intro outside
    have apart {x : Node} (above : Above dots f x root) (outside : ¬Above dots f x t) :
        Above dots (Naming.move dots f d name t src srcname) x root := by
      induction above using Relation.ReflTransGen.head_induction_on with
      | refl => exact .refl
      | head step _ ih =>
        refine .head ?_ (ih fun inside => outside (.head step inside))
        rw [ups,if_neg,step]
        rintro rfl
        exact outside .refl
    have all {x : Node} (above : Above dots f x root) :
        Above dots (Naming.move dots f d name t src srcname) x root := by
      induction above using Relation.ReflTransGen.head_induction_on with
      | refl => exact .refl
      | @head x y step _ ih =>
        by_cases same : x = t
        · exact .head (by rw [ups,if_pos same]) (apart (connected d dir) outside)
        · exact .head (by rw [ups,if_neg same,step]) ih
    intro x dir'
    refine all (connected x ?_)
    rw [IsDir,ups] at dir'
    split at dir'
    · rename_i same
      exact same ▸ moved
    · exact dir'

end

theorem Path.above {path : List Name} (way : Path dots f root path d) (rooted : Rooted dots f root)
    (dir : IsDir dots f d) : Above dots f d root := by
  induction way with
  | root => exact .refl
  | child _ names ih =>
    exact .head (rooted.below _ _ _ names dir).2 (ih (rooted.only _ _ _ names.names))

theorem Path.unique {path path' : List Name} (rooted : Rooted dots f root) (way : Path dots f root path d)
    (way' : Path dots f root path' d) (dir : IsDir dots f d) : path = path' := by
  induction way generalizing path' with
  | root =>
    cases way' with
    | root => rfl
    | child _ names => exact absurd rfl (rooted.not_root names)
  | child before names ih =>
    cases way' with
    | root => exact absurd rfl (rooted.not_root names)
    | child before' names' =>
      obtain ⟨rfl,rfl⟩ := rooted.unique names names' dir
      rw [ih before' (rooted.only _ _ _ names.names)]

theorem Above.path (rooted : Rooted dots f root) (above : Above dots f d root) :
    ∃ path, Path dots f root path d := by
  induction above using Relation.ReflTransGen.head_induction_on with
  | refl => exact ⟨[],.root⟩
  | @head x p step _ ih =>
    by_cases top : x = root
    · exact ⟨[],top ▸ .root⟩
    · obtain ⟨path,way⟩ := ih
      obtain ⟨name,child⟩ := rooted.listed x p step top
      exact ⟨name :: path,.child way child⟩

theorem Rooted.connected_iff (rooted : Rooted dots f root) :
    Connected dots f root ↔ ∀ d, IsDir dots f d → ∃! path, Path dots f root path d := by
  constructor
  · intro connected d dir
    obtain ⟨path,way⟩ := (connected d dir).path rooted
    exact ⟨path,way,fun path' way' => Path.unique rooted way' way dir⟩
  · intro ways d dir
    obtain ⟨path,way,_⟩ := ways d dir
    exact way.above rooted dir

end
end CandyFs.Naming
