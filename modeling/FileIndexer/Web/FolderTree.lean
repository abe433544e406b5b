import FileIndexer.Foundation.Runs
import FileIndexer.Service.Search.Browse

namespace FileIndexer

namespace FolderTree

-- a FolderNode and the nodes that it is nested in, innermost first
abbrev Chain := List Key

def level (chain : Chain) : Key := chain.head?.getD []

def onCurrentPath (currentPath : Option Key) (dir : Key) : Bool :=
  currentPath.any fun path => dir.isPrefixOf path

section Render

variable (levels : Key → Option (List Key)) (before now : Option Key)

-- which nodes are mounted, each with its `expanded`: the state of a new node starts from
-- onCurrentPath, and the effect of an old one runs where onCurrentPath has become true
def render (expanded : Chain → Option Bool) : Chain → Option Bool
  | [] => some true
  | dir :: up =>
    if render expanded up = some true ∧ ((levels (level up)).getD []).contains dir = true then
      some (match expanded (dir :: up) with
        | some b => b || (onCurrentPath now dir && !onCurrentPath before dir)
        | none => onCurrentPath now dir)
    else none

end Render

structure Tree where
  currentPath : Option Key
  levels : Key → Option (List Key)
  expanded : Chain → Option Bool

inductive TreeAction where
  | navigate (path : Option Key)
  | toggle (dir : Key) (up : Chain)
  | loaded (path : Key) (dirs : List Key)
  | failed (path : Key)

def Tree.mount (currentPath : Option Key) (levels : Key → Option (List Key)) : Tree where
  currentPath
  levels
  expanded := render levels none currentPath fun _ => none

def Tree.navigate (t : Tree) (path : Option Key) : Tree :=
  { t with currentPath := path, expanded := render t.levels t.currentPath path t.expanded }

def Tree.setLevel (t : Tree) (path : Key) (dirs : Option (List Key)) : Tree :=
  let levels := Function.update t.levels path dirs
  { t with levels, expanded := render levels t.currentPath t.currentPath t.expanded }

def Tree.step (t : Tree) : TreeAction → Option Tree
  | .navigate path => some (t.navigate path)
  | .toggle dir up =>
    (t.expanded (dir :: up)).map fun b =>
      let expanded := Function.update t.expanded (dir :: up) (some !b)
      { t with expanded := render t.levels t.currentPath t.currentPath expanded }
  | .loaded path dirs => some (t.setLevel path (some dirs))
  | .failed path => some (t.setLevel path none)

section Mounted

variable {levels : Key → Option (List Key)} {before now : Option Key}
  {expanded : Chain → Option Bool} {dir : Key} {up : Chain} {b : Bool}

theorem render_cons_eq_some : render levels before now expanded (dir :: up) = some b ↔
    (render levels before now expanded up = some true ∧ dir ∈ (levels (level up)).getD []) ∧
      b = (match expanded (dir :: up) with
        | some b => b || (onCurrentPath now dir && !onCurrentPath before dir)
        | none => onCurrentPath now dir) := by
  rw [render, ← List.contains_iff_mem]
  split
  · rename_i h
    rw [Option.some.injEq, eq_comm]
    exact (and_iff_right h).symm
  · rename_i h
    constructor
    · intro hnone
      cases hnone
    · exact fun hb => absurd hb.1 h

structure Tree.Rendered (t : Tree) : Prop where
  root : t.expanded [] = some true
  node : ∀ dir up, (∃ b, t.expanded (dir :: up) = some b) ↔
    t.expanded up = some true ∧ dir ∈ (t.levels (level up)).getD []

theorem rendered_of_render {t : Tree} {before now : Option Key} {expanded : Chain → Option Bool}
    (h : t.expanded = render t.levels before now expanded) : t.Rendered where
  root := by
    rw [h]
    rfl
  node dir up := by
    rw [h]
    constructor
    · rintro ⟨b, hb⟩
      exact (render_cons_eq_some.mp hb).1
    · intro hmounted
      exact ⟨_, render_cons_eq_some.mpr ⟨hmounted, rfl⟩⟩

theorem Tree.rendered_mount (currentPath : Option Key) (levels : Key → Option (List Key)) :
    (Tree.mount currentPath levels).Rendered :=
  rendered_of_render rfl

theorem Tree.rendered_preserved :
    Transition.Preserves Tree.step (fun _ _ => True) Tree.Rendered := by
  intro t a u _ _ hu
  cases a with
  | navigate path =>
    obtain rfl := Option.some.inj hu
    exact rendered_of_render rfl
  | toggle dir up =>
    obtain ⟨b, -, rfl⟩ := Option.map_eq_some_iff.mp hu
    exact rendered_of_render rfl
  | loaded path dirs =>
    obtain rfl := Option.some.inj hu
    exact rendered_of_render rfl
  | failed path =>
    obtain rfl := Option.some.inj hu
    exact rendered_of_render rfl

theorem Tree.Rendered.navigate {t : Tree} (h : t.Rendered) (path : Option Key) {chain : Chain}
    (hchain : t.expanded chain = some true) : (t.navigate path).expanded chain = some true := by
  induction chain with
  | nil => rfl
  | cons dir up ih =>
    obtain ⟨hup, hmem⟩ := (h.node dir up).mp ⟨true, hchain⟩
    refine render_cons_eq_some.mpr ⟨⟨ih hup, hmem⟩, ?_⟩
    rw [hchain]
    rfl

theorem Tree.Rendered.suffix {t : Tree} (h : t.Rendered) {chain up : Chain} (hup : up <:+ chain)
    (hchain : t.expanded chain = some true) : t.expanded up = some true := by
  induction chain with
  | nil => rwa [List.suffix_nil.mp hup]
  | cons dir chain ih =>
    rcases List.suffix_cons_iff.mp hup with rfl | hup
    · exact hchain
    · exact ih hup ((h.node dir chain).mp ⟨true, hchain⟩).1

end Mounted

section Visible

def LeavesOpen (t : Tree) : TreeAction → Prop
  | .toggle dir _ => onCurrentPath t.currentPath dir = false
  | _ => True

def Tree.PathOpen (t : Tree) : Prop :=
  ∀ dir up b, t.expanded (dir :: up) = some b → onCurrentPath t.currentPath dir = true → b = true

theorem pathOpen_of_render {t : Tree} {before : Option Key} {expanded : Chain → Option Bool}
    (h : t.expanded = render t.levels before t.currentPath expanded)
    (hopen : ∀ dir up b, expanded (dir :: up) = some b → onCurrentPath before dir = true →
      onCurrentPath t.currentPath dir = true → b = true) : t.PathOpen := by
  intro dir up b hb hdir
  rw [h] at hb
  obtain ⟨-, rfl⟩ := render_cons_eq_some.mp hb
  cases hold : expanded (dir :: up) with
  | none => exact hdir
  | some b =>
    cases hbefore : onCurrentPath before dir with
    | false => simp [hdir]
    | true => simp [hopen dir up b hold hbefore hdir]

theorem Tree.pathOpen_preserved : Transition.Preserves Tree.step LeavesOpen Tree.PathOpen := by
  intro t a u h hok hu
  cases a with
  | navigate path =>
    obtain rfl := Option.some.inj hu
    exact pathOpen_of_render rfl fun dir up b hb hdir _ => h dir up b hb hdir
  | toggle dir up =>
    obtain ⟨b, hb, rfl⟩ := Option.map_eq_some_iff.mp hu
    refine pathOpen_of_render (t := { t with expanded := _ }) rfl fun dir' up' b' hb' hdir' _ => ?_
    rw [Function.update_apply] at hb'
    split at hb'
    · rename_i heq
      obtain ⟨rfl, rfl⟩ := List.cons.inj heq
      have hclosed : onCurrentPath t.currentPath dir' = false := hok
      rw [hclosed] at hdir'
      cases hdir'
    · exact h dir' up' b' hb' hdir'
  | loaded path dirs =>
    obtain rfl := Option.some.inj hu
    exact pathOpen_of_render rfl fun dir up b hb hdir _ => h dir up b hb hdir
  | failed path =>
    obtain rfl := Option.some.inj hu
    exact pathOpen_of_render rfl fun dir up b hb hdir _ => h dir up b hb hdir

def ancestry : Nat → Key → Chain
  | 0, _ => []
  | n + 1, dir => if dir = [] then [] else dir :: ancestry n (Directories.parent dir)

def chainOf (dir : Key) : Chain := ancestry dir.length dir

theorem level_ancestry {n : Nat} {dir : Key} (hn : dir.length ≤ n) : level (ancestry n dir) = dir := by
  cases n with
  | zero => rw [List.eq_nil_of_length_eq_zero (Nat.le_zero.mp hn)]; rfl
  | succ n =>
    rw [ancestry]
    split
    · rename_i hnil
      exact hnil.symm
    · rfl

theorem parent_prefix {dir : Key} (h : hasSlashSuffix dir = true) : Directories.parent dir <+: dir := by
  obtain ⟨p, rfl⟩ := hasSlashSuffix_iff.mp h
  rw [Directories.parent_concat]
  exact (Segments.base_prefix slash p).trans (List.prefix_append p [slash])

variable {d : Directories} {files : List File}

theorem onCurrentPath_some {path dir : Key} : onCurrentPath (some path) dir = true ↔ dir <+: path := by
  rw [onCurrentPath, Option.any_some, List.isPrefixOf_iff_prefix]

theorem Tree.expanded_ancestry {t : Tree} (hrendered : t.Rendered) (hopen : t.PathOpen)
    (hd : d.Exact files) {path : Key} (hpath : t.currentPath = some path)
    (hlevels : ∀ p, p = [] ∨ ProperAncestor p path → t.levels p = some (d.children p)) {f : File}
    (hf : f ∈ files) {n : Nat} {dir : Key} (hn : dir.length ≤ n) (hbelow : dir <+: path)
    (hdir : dir = [] ∨ Holds dir f.key) : t.expanded (ancestry n dir) = some true := by
  induction n generalizing dir with
  | zero => exact hrendered.root
  | succ n ih =>
    rw [ancestry]
    split
    · exact hrendered.root
    · rename_i hne
      have hholds := hdir.resolve_left hne
      obtain ⟨hlen, hparent⟩ := Directories.parent_of_holds hholds
      have hup := parent_prefix hholds.2.1
      have hexpanded := ih (by omega) (hup.trans hbelow) hparent
      have hlisted : t.levels (Directories.parent dir) =
          some (d.children (Directories.parent dir)) := by
        refine hlevels _ (hparent.imp_right fun hp => ⟨hp.2.1, hup.trans hbelow, fun he => ?_⟩)
        have hle := hbelow.length_le
        rw [← he] at hle
        omega
      have hmem : dir ∈ (t.levels (level (ancestry n (Directories.parent dir)))).getD [] := by
        rw [level_ancestry (by omega), hlisted, Option.getD_some, Directories.mem_children]
        exact ⟨(hd dir).mpr ⟨f, hf, hholds⟩, rfl⟩
      obtain ⟨b, hb⟩ := (hrendered.node dir _).mpr ⟨hexpanded, hmem⟩
      rw [hb, hopen dir _ b hb (hpath ▸ onCurrentPath_some.mpr hbelow)]

def Tree.ShowsBrowsed (t : Tree) : Prop :=
  ∀ (d : Directories) (files : List File) (path : Key), d.Exact files → path ∈ d →
    t.currentPath = some path →
    (∀ p, p = [] ∨ ProperAncestor p path → t.levels p = some (d.children p)) →
      ∀ chain, chain <:+ chainOf path → t.expanded chain = some true

theorem browsed_folder_visible (currentPath : Option Key) (levels : Key → Option (List Key))
    (as : List TreeAction) :
    Transition.EveryState Tree.step (fun t => ∀ path chain, t.expanded chain = some true →
        (t.navigate path).expanded chain = some true) (Tree.mount currentPath levels) as ∧
      (Transition.EveryStep Tree.step LeavesOpen (Tree.mount currentPath levels) as →
        Transition.EveryState Tree.step Tree.ShowsBrowsed (Tree.mount currentPath levels) as) := by
  have hrendered := Transition.everyState_of_preserves Tree.rendered_preserved as
    (Tree.rendered_mount currentPath levels) (Transition.everyStep_of_forall (fun _ _ => trivial) as)
  refine ⟨hrendered.mono fun t ht path chain => ht.navigate path, fun hopen => ?_⟩
  have hmount : (Tree.mount currentPath levels).PathOpen :=
    pathOpen_of_render rfl fun dir up b hb _ _ => by cases hb
  have hboth := Transition.Preserves.and Tree.rendered_preserved
    fun t a u _ ht hok hu => Tree.pathOpen_preserved t a u ht hok hu
  refine (Transition.everyState_of_preserves hboth as
    ⟨Tree.rendered_mount currentPath levels, hmount⟩ hopen).mono fun t ht => ?_
  intro d files path hd hmem hpath hlevels chain hchain
  obtain ⟨f, hf, hholds⟩ := (hd path).mp hmem
  exact ht.1.suffix hchain (Tree.expanded_ancestry ht.1 ht.2 hd hpath hlevels hf (le_refl _)
    List.prefix_rfl (Or.inr hholds))

def nested : Directories := Directories.impliedBy [ascii "a/b/x"]

def nestedLoads : List TreeAction :=
  [.loaded [] (nested.children []), .loaded (ascii "a/") (nested.children (ascii "a/"))]

theorem exact_nested : nested.Exact [⟨1, ascii "a/b/x", 0, 0, 0⟩] := by
  intro path
  rw [nested, Directories.mem_impliedBy]
  simp

theorem nested_ancestor {p : Key} (h : ProperAncestor p (ascii "a/b/")) : p = ascii "a/" := by
  have hall : ∀ p ∈ (ascii "a/b/").inits, hasSlashSuffix p = true → p ≠ ascii "a/b/" →
      p = ascii "a/" := by decide
  obtain ⟨hslash, hprefix, hne⟩ := h
  exact hall p ((List.mem_inits _ _).mpr hprefix) hslash hne

theorem nested_folder_visible :
    ∃ t, Transition.exec Tree.step (Tree.mount (some (ascii "a/b/")) fun _ => none) nestedLoads =
        some t ∧ t.expanded [ascii "a/b/", ascii "a/"] = some true := by
  refine ⟨_, rfl, ?_⟩
  have hopen : Transition.EveryStep Tree.step LeavesOpen
      (Tree.mount (some (ascii "a/b/")) fun _ => none) nestedLoads :=
    fun _ _ => ⟨trivial, fun _ _ => ⟨trivial, trivial⟩⟩
  have hshows := ((browsed_folder_visible (some (ascii "a/b/")) (fun _ => none) nestedLoads).2
    hopen).last rfl
  have hmem : ascii "a/b/" ∈ nested := (exact_nested _).mpr ⟨_, List.mem_cons_self, by decide⟩
  refine hshows nested _ (ascii "a/b/") exact_nested hmem rfl (fun p hp => ?_) _ (by decide)
  rcases hp with rfl | hp
  · rfl
  · rw [nested_ancestor hp]
    rfl

example : (Transition.exec Tree.step (Tree.mount (some (ascii "a/b/")) fun _ => none)
    [.loaded [] [ascii "a/"], .loaded (ascii "a/") [ascii "a/b/"], .toggle (ascii "a/") [],
      .navigate (some (ascii "a/"))]).map (fun t => (t.expanded [ascii "a/"],
        t.expanded [ascii "a/b/", ascii "a/"])) = some (some false, none) := by decide

end Visible

end FolderTree

end FileIndexer
