import CandyFs.Naming

/-! Named objects with link counts that are kept as long as someone has them open. -/
namespace CandyFs.Naming

structure Object where
  isDir : Bool
  nlinks : Nat
  deriving DecidableEq

@[ext] structure Space (Node Name : Type*) where
  names : Names Node Name
  object : Node → Option Object
  opens : Node → Nat

/-- What can happen to a space. -/
inductive Event (Node Name : Type*) where
  | hold (t : Node)
  | release (t : Node)
  /-- A new object, without a name and open. -/
  | create (t : Node)
  | link (d : Node) (name : Name) (t : Node)
  | unlink (d : Node) (name : Name) (t : Node)
  | mkdir (d : Node) (name : Name) (t : Node)
  | rename (d : Node) (name : Name) (t src : Node) (srcname : Name)
  | move (d : Node) (name : Name) (t src : Node) (srcname : Name)

section
variable {Node Name : Type*}

def Space.nlinks (s : Space Node Name) (t : Node) : Nat := (s.object t).elim 0 (·.nlinks)

variable [DecidableEq Node]

/-- Names are for objects, an object that is not open has names, and they are counted. The root has
one link that comes from no name. -/
structure Space.Valid (dots : Dots Name) (root : Node) (s : Space Node Name) : Prop where
  rooted : Rooted dots s.names root
  counts : Counts dots s.names (fun t => if t = root then 1 else 0) s.nlinks
  dirs : ∀ d, IsDir dots s.names d → ∃ o, s.object d = some o ∧ o.isDir
  named : ∀ d n t, s.names d n = some t → ∃ o, s.object t = some o ∧ (o.isDir → IsDir dots s.names t)
  opened : ∀ t, s.opens t ≠ 0 → s.object t ≠ none
  linked : ∀ t o, s.object t = some o → s.opens t = 0 → o.nlinks ≠ 0

def Space.setLinks (s : Space Node Name) (t : Node) (nlinks : Nat) : Space Node Name :=
  { s with object := Function.update s.object t ((s.object t).map fun o => { o with nlinks := nlinks }) }

variable (dots : Dots Name)

/-- What has to hold for an event. -/
def Event.Allowed (s : Space Node Name) : Event Node Name → Prop
  | hold t => s.object t ≠ none
  | release t => s.opens t ≠ 0
  | create t => s.object t = none
  | link d name t => IsDir dots s.names d ∧ s.names d name = none ∧ ∃ o, s.object t = some o ∧ ¬o.isDir
  | unlink d name t => Child dots s.names d name t ∧ Childless dots s.names t ∧ s.opens t ≠ 0
  | mkdir d name t => IsDir dots s.names d ∧ s.names d name = none ∧ s.object t = none
  | rename d name t src srcname => IsDir dots s.names d ∧ s.names d name = none ∧
      ¬IsDir dots s.names t ∧ Child dots s.names src srcname t
  | move d name t src srcname => IsDir dots s.names d ∧ s.names d name = none ∧
      IsDir dots s.names t ∧ Child dots s.names src srcname t

variable [DecidableEq Name]

def Space.step (s : Space Node Name) : Event Node Name → Space Node Name
  | .hold t => { s with opens := Function.update s.opens t (s.opens t + 1) }
  | .release t => { s with
      object := if s.opens t - 1 = 0 ∧ s.nlinks t = 0 then Function.update s.object t none else s.object
      opens := Function.update s.opens t (s.opens t - 1) }
  | .create t => { s with
      object := Function.update s.object t (some ⟨false,0⟩)
      opens := Function.update s.opens t 1 }
  | .link d name t => { s.setLinks t (s.nlinks t + 1) with names := bind s.names d name t }
  | .unlink d name t => { s.setLinks t (s.nlinks t - 1) with names := remove s.names d name t }
  | .mkdir d name t => { s with
      names := mkdir dots s.names d name t
      object := Function.update s.object t (some ⟨true,1⟩) }
  | .rename d name t src srcname => { s with names := rename s.names d name t src srcname }
  | .move d name t src srcname => { s with names := move dots s.names d name t src srcname }

def Space.run (s : Space Node Name) : List (Event Node Name) → Space Node Name
  | [] => s
  | e :: es => (s.step dots e).run es

/-- Each event is allowed when it happens. -/
def Space.Allows (s : Space Node Name) : List (Event Node Name) → Prop
  | [] => True
  | e :: es => e.Allowed dots s ∧ (s.step dots e).Allows es

end

section
variable {Node Name : Type*} [DecidableEq Node] {dots : Dots Name} {root d t x : Node} {name n : Name}
  {s : Space Node Name} {o : Object} {k : Nat}

theorem Space.Valid.unnamed (valid : s.Valid dots root) (none : s.nlinks t = 0) : s.names x n ≠ some t := by
  intro names
  have linked (some : ∃ d name, Child dots s.names d name t) : False := by
    obtain ⟨d,name,child⟩ := some
    exact absurd (valid.counts.pos child) (by omega)
  have top : t ≠ root := by
    rintro rfl
    have total := valid.counts t
    rw [none] at total
    simp at total
  by_cases here : n = dots.here
  · subst here
    have dir := valid.rooted.only x _ t names
    rw [valid.rooted.self x dir,Option.some.injEq] at names
    subst names
    obtain ⟨p,above⟩ := Option.ne_none_iff_exists'.mp dir
    obtain ⟨n,child⟩ := valid.rooted.listed x p above top
    exact linked ⟨p,n,child⟩
  by_cases up : n = dots.up
  · subst up
    obtain ⟨p,above⟩ := Option.ne_none_iff_exists'.mp (valid.rooted.above x t names)
    obtain ⟨n,child⟩ := valid.rooted.listed t p above top
    exact linked ⟨p,n,child⟩
  · exact linked ⟨x,n,names,here,up⟩

theorem setLinks_object : (s.setLinks t k).object x =
    if x = t then (s.object t).map fun o => { o with nlinks := k } else s.object x := by
  rw [Space.setLinks]
  exact Function.update_apply ..

theorem setLinks_nlinks (some : s.object t ≠ none) :
    (s.setLinks t k).nlinks = Function.update s.nlinks t k := by
  obtain ⟨o,named⟩ := Option.ne_none_iff_exists'.mp some
  funext x
  rw [Space.nlinks,setLinks_object,Function.update_apply]
  split
  · rw [named]
    rfl
  · rfl

theorem setLinks_kind (object : s.object x = some o) :
    ∃ o', (s.setLinks t k).object x = some o' ∧ o'.isDir = o.isDir := by
  rw [setLinks_object]
  split
  · rename_i same
    rw [← same,object]
    exact ⟨_,rfl,rfl⟩
  · exact ⟨o,object,rfl⟩

theorem setLinks_some : (s.setLinks t k).object x ≠ none ↔ s.object x ≠ none := by
  rw [setLinks_object]
  split
  · rename_i same
    rw [same]
    simp
  · rfl

theorem Space.Valid.child_object (valid : s.Valid dots root) (child : Child dots s.names d name t) :
    s.object t ≠ none := by
  obtain ⟨o,object,_⟩ := valid.named d name t child.names
  rw [object]
  exact Option.some_ne_none o

theorem Space.Valid.hold (valid : s.Valid dots root) (some : s.object t ≠ none) :
    Space.Valid dots root { s with opens := Function.update s.opens t (s.opens t + 1) } := by
  refine ⟨valid.rooted,valid.counts,valid.dirs,valid.named,fun x held => ?_,fun x o object closed => ?_⟩
  · dsimp only at held
    rw [Function.update_apply] at held
    split at held
    · rename_i same
      rw [same]
      exact some
    · exact valid.opened x held
  · dsimp only at closed
    rw [Function.update_apply] at closed
    split at closed
    · cases closed
    · exact valid.linked x o object closed

variable [DecidableEq Name] {e : Event Node Name}

theorem Space.Valid.release (valid : s.Valid dots root) : (s.step dots (.release t)).Valid dots root := by
  by_cases last : s.opens t - 1 = 0 ∧ s.nlinks t = 0
  · have unnamed {x : Node} {n : Name} : s.names x n ≠ some t := valid.unnamed last.2
    have same : s.step dots (.release t) = ⟨s.names,Function.update s.object t none,
        Function.update s.opens t (s.opens t - 1)⟩ := by rw [Space.step,if_pos last]
    rw [same]
    constructor
    · exact valid.rooted
    · refine valid.counts.congr (fun _ _ _ => Iff.rfl) fun x => ?_
      rw [Space.nlinks]
      dsimp only
      rw [Function.update_apply]
      split
      · rename_i same
        rw [same,last.2]
        rfl
      · rfl
    · intro d dir
      obtain ⟨o,object,isDir⟩ := valid.dirs d dir
      refine ⟨o,?_,isDir⟩
      dsimp only
      rw [Function.update_of_ne,object]
      rintro rfl
      exact unnamed (valid.rooted.self d dir)
    · intro d n x names
      obtain ⟨o,object,isDir⟩ := valid.named d n x names
      refine ⟨o,?_,isDir⟩
      dsimp only
      rw [Function.update_of_ne,object]
      rintro rfl
      exact unnamed names
    · intro x held
      dsimp only at held ⊢
      rw [Function.update_apply] at held ⊢
      split at held
      · exact absurd last.1 held
      · rw [if_neg ‹_›]
        exact valid.opened x held
    · intro x o object closed
      dsimp only at object closed
      rw [Function.update_apply] at object closed
      split at object
      · cases object
      · rw [if_neg ‹_›] at closed
        exact valid.linked x o object closed
  · have same : s.step dots (.release t) = ⟨s.names,s.object,
        Function.update s.opens t (s.opens t - 1)⟩ := by rw [Space.step,if_neg last]
    rw [same]
    refine ⟨valid.rooted,valid.counts,valid.dirs,valid.named,fun x held => ?_,fun x o object closed => ?_⟩
    · dsimp only at held
      rw [Function.update_apply] at held
      split at held
      · rename_i same
        exact same ▸ valid.opened t (by omega)
      · exact valid.opened x held
    · dsimp only at object closed
      rw [Function.update_apply] at closed
      split at closed
      · rename_i same
        subst same
        intro none
        refine last ⟨closed,?_⟩
        rw [Space.nlinks,object]
        exact none
      · exact valid.linked x o object closed

theorem Space.Valid.create (valid : s.Valid dots root) (fresh : s.object t = none) :
    (s.step dots (.create t)).Valid dots root := by
  have kept {x : Node} {o : Object} (object : s.object x = some o) :
      Function.update s.object t (some ⟨false,0⟩) x = some o := by
    rw [Function.update_of_ne,object]
    rintro rfl
    rw [fresh] at object
    cases object
  constructor
  · exact valid.rooted
  · refine valid.counts.congr (fun _ _ _ => Iff.rfl) fun x => ?_
    rw [Space.nlinks,Space.nlinks,Space.step]
    dsimp only
    rw [Function.update_apply]
    split
    · rename_i same
      rw [same,fresh]
      rfl
    · rfl
  · intro d dir
    obtain ⟨o,object,isDir⟩ := valid.dirs d dir
    exact ⟨o,kept object,isDir⟩
  · intro d n x names
    obtain ⟨o,object,isDir⟩ := valid.named d n x names
    exact ⟨o,kept object,isDir⟩
  · intro x held
    rw [Space.step] at held ⊢
    dsimp only at held ⊢
    rw [Function.update_apply] at held ⊢
    split
    · exact Option.some_ne_none _
    · rw [if_neg ‹_›] at held
      exact valid.opened x held
  · intro x o object closed
    rw [Space.step] at object closed
    dsimp only at object closed
    rw [Function.update_apply] at object closed
    split at closed
    · cases closed
    · rw [if_neg ‹_›] at object
      exact valid.linked x o object closed

omit [DecidableEq Name] in
theorem Space.Valid.rearrange {names : Names Node Name} (valid : s.Valid dots root)
    (some : s.object t ≠ none) (rooted : Rooted dots names root)
    (counts : Counts dots names (fun t => if t = root then 1 else 0) (Function.update s.nlinks t k))
    (dirs : ∀ x, IsDir dots names x → IsDir dots s.names x)
    (named : ∀ x n x', names x n = Option.some x' →
      ∃ o, s.object x' = Option.some o ∧ (o.isDir → IsDir dots names x'))
    (kept : k ≠ 0 ∨ s.opens t ≠ 0) : Space.Valid dots root { s.setLinks t k with names := names } := by
  refine ⟨rooted,counts.congr (fun _ _ _ => Iff.rfl) fun x => congrFun (setLinks_nlinks some) x,
    fun x dir => ?_,fun x n x' names => ?_,fun x held => setLinks_some.mpr (valid.opened x held),
    fun x o object closed => ?_⟩
  · obtain ⟨o,object,kind⟩ := valid.dirs x (dirs x dir)
    obtain ⟨o',object',same⟩ := setLinks_kind (t := t) (k := k) object
    exact ⟨o',object',same ▸ kind⟩
  · obtain ⟨o,object,kind⟩ := named x n x' names
    obtain ⟨o',object',same⟩ := setLinks_kind (t := t) (k := k) object
    exact ⟨o',object',fun kind' => kind (same ▸ kind')⟩
  · replace object : (s.setLinks t k).object x = Option.some o := object
    rw [setLinks_object] at object
    split at object
    · rename_i same
      obtain ⟨o',found⟩ := Option.ne_none_iff_exists'.mp some
      rw [found] at object
      cases object
      exact kept.resolve_right fun held => held (same ▸ closed)
    · exact valid.linked x o object closed

omit [DecidableEq Name] in
theorem Space.Valid.unused (valid : s.Valid dots root) (fresh : s.object t = none) :
    s.names x n ≠ some t := by
  refine valid.unnamed ?_
  rw [Space.nlinks,fresh]
  rfl

theorem Space.Valid.link (valid : s.Valid dots root) (dir : IsDir dots s.names d)
    (free : s.names d name = none) (object : s.object t = some o) (plain : ¬o.isDir) :
    (s.step dots (.link d name t)).Valid dots root := by
  obtain ⟨here,up⟩ := valid.rooted.named dir free
  have leaf : ¬IsDir dots s.names t := by
    intro isDir
    obtain ⟨o',object',isDir'⟩ := valid.dirs t isDir
    rw [object,Option.some.injEq] at object'
    exact plain (object' ▸ isDir')
  have isDir (x : Node) : IsDir dots (Naming.bind s.names d name t) x ↔ IsDir dots s.names x := by
    rw [IsDir,bind_up up,IsDir]
  have new : ¬Child dots s.names d name t := fun child => by
    rw [child.names] at free
    cases free
  refine valid.rearrange (by rw [object]; exact Option.some_ne_none _) (valid.rooted.bind dir free leaf)
    (valid.counts.more new fun _ _ _ => child_bind free here up) (fun x => (isDir x).mp)
    (fun x n x' names => ?_) (.inl (Nat.succ_ne_zero _))
  rw [isDir]
  rw [bind_apply] at names
  split at names
  · cases names
    exact ⟨o,object,fun kind => absurd kind plain⟩
  · exact valid.named x n x' names

theorem Space.Valid.unlink (valid : s.Valid dots root) (child : Child dots s.names d name t)
    (childless : Childless dots s.names t) (held : s.opens t ≠ 0) :
    (s.step dots (.unlink d name t)).Valid dots root := by
  have isDir (x : Node) : IsDir dots (Naming.remove s.names d name t) x ↔
      x ≠ t ∧ IsDir dots s.names x := by
    rw [IsDir,remove_up child.up]
    split
    · simp [*]
    · simp [*,IsDir]
  refine valid.rearrange (valid.child_object child) (valid.rooted.remove child childless)
    (valid.counts.less child fun _ _ _ => child_remove childless) (fun x dir => ((isDir x).mp dir).2)
    (fun x n x' names => ?_) (.inr held)
  rw [isDir]
  rw [remove_apply] at names
  split at names
  · cases names
  rename_i other
  split at names
  · cases names
  rename_i differ
  obtain ⟨o,object,kind⟩ := valid.named x n x' names
  refine ⟨o,object,fun dir => ⟨?_,kind dir⟩⟩
  rintro rfl
  -- the directory had no other name, is no other's own, and none is below it
  by_cases here : n = dots.here
  · subst here
    rw [valid.rooted.self x (valid.rooted.only x _ x' names),Option.some.injEq] at names
    exact differ names
  by_cases up : n = dots.up
  · subst up
    exact valid.rooted.not_childless names (valid.rooted.not_root child) childless
  · exact other (valid.rooted.unique child ⟨names,here,up⟩ (kind dir))

theorem Space.Valid.mkdir (valid : s.Valid dots root) (dir : IsDir dots s.names d)
    (free : s.names d name = none) (fresh : s.object t = none) :
    (s.step dots (.mkdir d name t)).Valid dots root := by
  obtain ⟨here,up⟩ := valid.rooted.named dir free
  have unused (x : Node) (n : Name) : s.names x n ≠ some t := valid.unused fresh
  have plain : ¬IsDir dots s.names t := fun dir' => unused t _ (valid.rooted.self t dir')
  have isDir (x : Node) : IsDir dots (Naming.mkdir dots s.names d name t) x ↔
      x = t ∨ IsDir dots s.names x := by
    rw [IsDir,mkdir_up up]
    split
    · simp [*]
    · simp [*,IsDir]
  have kept {x : Node} {o : Object} (object : s.object x = some o) :
      Function.update s.object t (some ⟨true,1⟩) x = some o := by
    rw [Function.update_of_ne,object]
    rintro rfl
    rw [fresh] at object
    cases object
  have links : s.nlinks t = 0 := by
    rw [Space.nlinks,fresh]
    rfl
  constructor
  · exact valid.rooted.mkdir dir free plain unused
  · refine (valid.counts.more (fun child => unused d name child.names) fun _ _ _ =>
      child_mkdir valid.rooted dir free plain).congr (fun _ _ _ => Iff.rfl) fun x => ?_
    rw [Function.update_apply,Space.nlinks,Space.step]
    dsimp only
    rw [Function.update_apply]
    split
    · rw [links]
      rfl
    · rfl
  · intro x dir'
    rcases (isDir x).mp dir' with rfl | old
    · exact ⟨⟨true,1⟩,Function.update_self ..,rfl⟩
    · obtain ⟨o,object,kind⟩ := valid.dirs x old
      exact ⟨o,kept object,kind⟩
  · intro x n x' names
    by_cases new : x' = t
    · subst new
      exact ⟨⟨true,1⟩,Function.update_self ..,fun _ => (isDir x').mpr (.inl rfl)⟩
    have old : ∃ o, s.object x' = some o ∧ (o.isDir → IsDir dots s.names x') := by
      rw [Space.step] at names
      dsimp only at names
      rw [mkdir_apply] at names
      split at names
      · cases names
        exact absurd rfl new
      split at names
      · split at names
        · cases names
          exact absurd rfl new
        split at names
        · cases names
          obtain ⟨o,object,_⟩ := valid.dirs d dir
          exact ⟨o,object,fun _ => dir⟩
        · cases names
      · exact valid.named x n x' names
    obtain ⟨o,object,kind⟩ := old
    exact ⟨o,kept object,fun dir' => (isDir x').mpr (.inr (kind dir'))⟩
  · intro x held
    have some := valid.opened x held
    obtain ⟨o,object⟩ := Option.ne_none_iff_exists'.mp some
    rw [Space.step]
    dsimp only
    rw [kept object]
    exact Option.some_ne_none o
  · intro x o object closed
    rw [Space.step] at object
    dsimp only at object
    rw [Function.update_apply] at object
    split at object
    · cases object
      exact Nat.one_ne_zero
    · exact valid.linked x o object closed

theorem Space.Valid.renamed {names : Names Node Name} {src : Node} {srcname : Name}
    (valid : s.Valid dots root) (child : Child dots s.names src srcname t)
    (free : s.names d name = none) (here : name ≠ dots.here) (up : name ≠ dots.up)
    (rooted : Rooted dots names root) (isDir : ∀ x, IsDir dots names x ↔ IsDir dots s.names x)
    (children : ∀ x n t', Child dots names x n t' ↔ Child dots (rename s.names d name t src srcname) x n t')
    (named : ∀ x n x', names x n = some x' → x' = t ∨ s.names x n = some x' ∨ x' = d)
    (dir : IsDir dots s.names d) : Space.Valid dots root { s with names := names } := by
  refine ⟨rooted,?_,fun x dir => valid.dirs x ((isDir x).mp dir),fun x n x' names => ?_,valid.opened,
    valid.linked⟩
  · exact (valid.counts.rename child free here up).congr children fun _ => rfl
  · rw [isDir]
    rcases named x n x' names with same | old | same
    · exact same ▸ valid.named src srcname t child.names
    · exact valid.named x n x' old
    · obtain ⟨o,object,_⟩ := valid.dirs d dir
      exact same ▸ ⟨o,object,fun _ => dir⟩

theorem Space.Valid.rename {src : Node} {srcname : Name} (valid : s.Valid dots root)
    (dir : IsDir dots s.names d) (free : s.names d name = none) (plain : ¬IsDir dots s.names t)
    (child : Child dots s.names src srcname t) :
    (s.step dots (.rename d name t src srcname)).Valid dots root := by
  obtain ⟨here,up⟩ := valid.rooted.named dir free
  refine valid.renamed child free here up (valid.rooted.rename dir free plain child) (fun x => ?_)
    (fun _ _ _ => Iff.rfl) (fun x n x' names => ?_) dir
  · rw [IsDir,rename_up up child.up,IsDir]
  · rw [rename_apply] at names
    split at names
    · cases names
    split at names
    · cases names
      exact .inl rfl
    · exact .inr (.inl names)

theorem Space.Valid.move {src : Node} {srcname : Name} (valid : s.Valid dots root)
    (dir : IsDir dots s.names d) (free : s.names d name = none) (moved : IsDir dots s.names t)
    (child : Child dots s.names src srcname t) :
    (s.step dots (.move d name t src srcname)).Valid dots root := by
  obtain ⟨here,up⟩ := valid.rooted.named dir free
  refine valid.renamed child free here up (valid.rooted.move dir free moved child) (fun x => ?_)
    (fun _ _ _ => child_move) (fun x n x' names => ?_) dir
  · rw [IsDir,move_up up child.up]
    split
    · rename_i same
      exact iff_of_true (Option.some_ne_none _) (same ▸ moved)
    · rfl
  · rw [move_apply] at names
    split at names
    · cases names
      exact .inr (.inr rfl)
    rw [rename_apply] at names
    split at names
    · cases names
    split at names
    · cases names
      exact .inl rfl
    · exact .inr (.inl names)

theorem Space.Valid.step (valid : s.Valid dots root) (allowed : e.Allowed dots s) :
    (s.step dots e).Valid dots root := by
  cases e with
  | hold t => exact valid.hold allowed
  | release t => exact valid.release
  | create t => exact valid.create allowed
  | link d name t =>
    obtain ⟨dir,free,o,object,plain⟩ := allowed
    exact valid.link dir free object plain
  | unlink d name t => exact valid.unlink allowed.1 allowed.2.1 allowed.2.2
  | mkdir d name t => exact valid.mkdir allowed.1 allowed.2.1 allowed.2.2
  | rename d name t src srcname => exact valid.rename allowed.1 allowed.2.1 allowed.2.2.1 allowed.2.2.2
  | move d name t src srcname => exact valid.move allowed.1 allowed.2.1 allowed.2.2.1 allowed.2.2.2

theorem Space.Valid.run (es : List (Event Node Name)) :
    ∀ {s : Space Node Name}, s.Valid dots root → s.Allows dots es → (s.run dots es).Valid dots root := by
  induction es with
  | nil => exact fun valid _ => valid
  | cons e es ih => exact fun valid allowed => ih (valid.step allowed.1) allowed.2

theorem run_append (es es' : List (Event Node Name)) :
    ∀ s : Space Node Name, s.run dots (es ++ es') = (s.run dots es).run dots es' := by
  induction es with
  | nil => exact fun _ => rfl
  | cons e es ih => exact fun s => ih _

theorem allows_append (es es' : List (Event Node Name)) : ∀ s : Space Node Name,
    s.Allows dots (es ++ es') ↔ s.Allows dots es ∧ (s.run dots es).Allows dots es' := by
  induction es with
  | nil => exact fun s => (iff_of_eq (true_and _)).symm
  | cons e es ih => exact fun s => (and_congr_right' (ih _)).trans and_assoc.symm

/-- A directory is moved below itself. -/
def Event.Detaches (dots : Dots Name) (s : Space Node Name) : Event Node Name → Prop
  | .move d _ t _ _ => Above dots s.names d t
  | _ => False

theorem Space.Valid.connected (valid : s.Valid dots root) (allowed : e.Allowed dots s)
    (connected : Connected dots s.names root) :
    Connected dots (s.step dots e).names root ↔ ¬e.Detaches dots s := by
  have kept {names : Names Node Name} (up : ∀ x, names x dots.up = s.names x dots.up) :
      Connected dots names root ↔ ¬False := iff_of_true (connected.same up) not_false
  cases e with
  | hold t => exact kept fun _ => rfl
  | release t => exact kept fun _ => rfl
  | create t => exact kept fun _ => rfl
  | link d name t =>
    obtain ⟨_,up⟩ := valid.rooted.named allowed.1 allowed.2.1
    exact kept fun _ => bind_up up
  | unlink d name t => exact iff_of_true (connected.remove valid.rooted allowed.1 allowed.2.1) not_false
  | mkdir d name t =>
    have plain : ¬IsDir dots s.names t := fun dir =>
      valid.unused allowed.2.2 (valid.rooted.self t dir)
    exact iff_of_true (connected.mkdir valid.rooted allowed.1 allowed.2.1 plain) not_false
  | rename d name t src srcname =>
    obtain ⟨_,up⟩ := valid.rooted.named allowed.1 allowed.2.1
    exact kept fun _ => rename_up up allowed.2.2.2.up
  | move d name t src srcname =>
    exact connected.move valid.rooted allowed.1 allowed.2.1 allowed.2.2.1 allowed.2.2.2

theorem Space.Valid.calm_run (es : List (Event Node Name)) : ∀ {s : Space Node Name}, s.Valid dots root →
    s.Allows dots es → (∀ e ∈ es, ∀ s, ¬e.Detaches dots s) → Connected dots s.names root →
    Connected dots (s.run dots es).names root := by
  induction es with
  | nil => exact fun _ _ _ connected => connected
  | cons e es ih =>
    intro s valid allows calm connected
    refine ih (valid.step allows.1) allows.2 (fun e member => calm e (List.mem_cons_of_mem _ member)) ?_
    exact (valid.connected allows.1 connected).mpr (calm e List.mem_cons_self s)

/-- What becomes of the number of times that an object is open. -/
def Event.net : Event Node Name → Node → Int
  | .hold t,x | .create t,x => if x = t then 1 else 0
  | .release t,x => if x = t then -1 else 0
  | _,_ => 0

def net (es : List (Event Node Name)) (x : Node) : Int := (es.map (·.net x)).sum

omit [DecidableEq Name] in
@[simp] theorem net_nil : net ([] : List (Event Node Name)) x = 0 := rfl

omit [DecidableEq Name] in
@[simp] theorem net_cons (e : Event Node Name) (es : List (Event Node Name)) :
    net (e :: es) x = e.net x + net es x := List.sum_cons

omit [DecidableEq Name] in
@[simp] theorem net_append (es es' : List (Event Node Name)) : net (es ++ es') x = net es x + net es' x := by
  rw [net,List.map_append,List.sum_append]
  rfl

theorem Space.Valid.opens_step (valid : s.Valid dots root) (allowed : e.Allowed dots s) (x : Node) :
    ((s.step dots e).opens x : Int) = s.opens x + e.net x := by
  cases e with
  | hold t =>
    change ((Function.update s.opens t (s.opens t + 1) x : Nat) : Int) = _
    rw [Function.update_apply,Event.net]
    split
    · rename_i same
      rw [same]
      rfl
    · exact (add_zero _).symm
  | create t =>
    have closed : s.opens t = 0 := by
      by_contra held
      exact valid.opened t held allowed
    change ((Function.update s.opens t 1 x : Nat) : Int) = _
    rw [Function.update_apply,Event.net]
    split
    · rename_i same
      rw [same,closed]
      rfl
    · exact (add_zero _).symm
  | release t =>
    have held : s.opens t ≠ 0 := allowed
    change ((Function.update s.opens t (s.opens t - 1) x : Nat) : Int) = _
    rw [Function.update_apply,Event.net]
    split
    · rename_i same
      rw [same]
      omega
    · exact (add_zero _).symm
  | link | unlink | mkdir | rename | move => exact (add_zero _).symm

theorem Space.Valid.opens_run (x : Node) (es : List (Event Node Name)) : ∀ {s : Space Node Name},
    s.Valid dots root → s.Allows dots es → ((s.run dots es).opens x : Int) = s.opens x + net es x := by
  induction es with
  | nil => exact fun _ _ => (add_zero _).symm
  | cons e es ih =>
    intro s valid allowed
    rw [Space.run,ih (valid.step allowed.1) allowed.2,valid.opens_step allowed.1,net_cons,add_assoc]

/-- Nothing but a root. -/
def Space.start (dots : Dots Name) (root : Node) : Space Node Name where
  names := Function.update (fun _ _ => none) root fun n =>
    if n = dots.here then some root else if n = dots.up then some root else none
  object := Function.update (fun _ => none) root (some ⟨true,1⟩)
  opens _ := 0

theorem start_names : (Space.start dots root).names d n =
    if d = root ∧ (n = dots.here ∨ n = dots.up) then some root else none := by
  change Function.update (fun _ _ => none) root _ d n = _
  rw [Function.update_apply]
  by_cases same : d = root
  · rw [if_pos same]
    by_cases here : n = dots.here
    · rw [if_pos here,if_pos ⟨same,.inl here⟩]
    · rw [if_neg here,if_congr (and_iff_right same).symm rfl rfl,if_congr (and_congr_right fun _ =>
        (or_iff_right here).symm) rfl rfl]
  · rw [if_neg same,if_neg fun both => same both.1]

theorem start_childless : ¬Child dots (Space.start dots root).names d n t := by
  rintro ⟨names,here,up⟩
  rw [start_names,if_neg fun both => both.2.elim here up] at names
  cases names

theorem start_isDir : IsDir dots (Space.start dots root).names d ↔ d = root := by
  rw [IsDir,start_names]
  split
  · rename_i both
    exact iff_of_true (Option.some_ne_none _) both.1
  · rename_i other
    exact iff_of_false (not_not.mpr rfl) fun same => other ⟨same,.inr rfl⟩

theorem start_up (names : (Space.start dots root).names d n = some t) : d = root ∧ t = root := by
  rw [start_names] at names
  split at names
  · rename_i both
    cases names
    exact ⟨both.1,rfl⟩
  · cases names

theorem Space.Valid.start : (Space.start dots root).Valid dots root := by
  have object (x : Node) : (Space.start dots root).object x = if x = root then some ⟨true,1⟩ else none := by
    change Function.update (fun _ => Option.none) root (some (⟨true,1⟩ : Object)) x = _
    exact Function.update_apply ..
  constructor
  · constructor
    · exact fun d n t names => start_isDir.mpr (start_up names).1
    · intro d dir
      obtain rfl := start_isDir.mp dir
      rw [start_names,if_pos ⟨rfl,.inl rfl⟩]
    · exact fun d p names => start_isDir.mpr (start_up names).2
    · rw [start_names,if_pos ⟨rfl,.inr rfl⟩]
    · exact fun _ _ _ child => absurd child start_childless
    · exact fun _ _ _ _ child => absurd child start_childless
    · exact fun d p names differ => absurd (start_up names).1 differ
  · intro t
    have none : links dots (Space.start dots root).names t = ∅ :=
      Set.eq_empty_iff_forall_notMem.mpr fun e child => start_childless child
    rw [none,Set.encard_empty,zero_add,Space.nlinks,object]
    dsimp only
    split <;> rfl
  · intro d dir
    rw [object,if_pos (start_isDir.mp dir)]
    exact ⟨_,rfl,rfl⟩
  · intro d n t names
    rw [object,if_pos (start_up names).2]
    exact ⟨_,rfl,fun _ => start_isDir.mpr (start_up names).2⟩
  · exact fun t held => absurd rfl held
  · intro t o named _
    rw [object] at named
    split at named
    · cases named
      exact Nat.one_ne_zero
    · cases named

end
end CandyFs.Naming
