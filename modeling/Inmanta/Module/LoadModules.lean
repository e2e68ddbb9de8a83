import Mathlib.Data.List.Infix
import Mathlib.Data.List.Nodup
import Inmanta.Lib.Dict
import Inmanta.Lib.Loop

/-!
# Loading the modules of a project

A project is loaded from the imports of its main file. Loading `a::b::c` loads
`a`, `a::b` and `a::b::c`, and what these import is loaded in turn. The work is
a stack of imports; what has been loaded is not loaded again.

`load_exactly` says what a load that ends has loaded: what is needed, each
submodule once and after the modules it is in. `load_succeeds_iff` says when it
succeeds: just if all that is needed can be loaded.
-/

namespace Inmanta

namespace ModuleLoading

/-- The name of a module or submodule, `top::sub₁::…`. -/
structure ModuleName where
  top : String
  subs : List String
  deriving DecidableEq

/-- The modules that a submodule is in, the outermost first, and the submodule itself. -/
def ModuleName.prefixes (n : ModuleName) : List ModuleName := n.subs.inits.map (⟨n.top, ·⟩)

inductive AstError where
  /-- `InvalidModuleException`: there is no such file. -/
  | invalidModule
  | parserException

inductive LoadError where
  | moduleLoading (name : ModuleName)
  | parserException (file : ModuleName)
  | outOfFuel

/-- What there is on disk. -/
structure Sources (α : Type) where
  autostd : Bool
  /-- The imports of the main file. -/
  mainImports : List ModuleName
  /-- The module can be found (`Project.get_module`). -/
  hasModule : String → Bool
  getAst : ModuleName → Except AstError α
  importStatements : α → List ModuleName

variable {α : Type}

def std : ModuleName := ⟨"std", []⟩

/-- `Project.get_imports`. -/
def Sources.projectImports (src : Sources α) : List ModuleName :=
  if src.autostd then std :: src.mainImports else src.mainImports

/-- `Module.get_imports`. -/
def Sources.getImports (src : Sources α) (name : ModuleName) (ast : α) : List ModuleName :=
  if name.top ≠ "std" ∧ src.autostd = true then std :: src.importStatements ast
  else src.importStatements ast

/-- The submodules that are loaded, and their syntax trees by top level module. -/
structure Loading (α : Type) where
  done : List ModuleName
  asts : Dict String (List (ModuleName × α))

def Loading.empty : Loading α := ⟨[], .empty⟩

def Loading.add (s : Loading α) (name : ModuleName) (ast : α) : Loading α :=
  ⟨s.done ++ [name], s.asts.set name.top (s.asts.getD name.top [] ++ [(name, ast)])⟩

def astError (imp name : ModuleName) : AstError → LoadError
  | .invalidModule => .moduleLoading imp
  | .parserException => .parserException name

/-- Load what is not loaded yet; the result has the imports found on the way. -/
def loadSubModule (src : Sources α) (imp : ModuleName) :
    List ModuleName → Loading α → Except LoadError (Loading α × List ModuleName)
  | [], s => .ok (s, [])
  | name :: names, s =>
      if name ∈ s.done then loadSubModule src imp names s
      else match src.getAst name with
        | .error e => .error (astError imp name e)
        | .ok ast =>
            match loadSubModule src imp names (s.add name ast) with
            | .error e => .error e
            | .ok (s', imports) => .ok (s', src.getImports name ast ++ imports)

/-- The body of the loop. The imports are a stack, so that the last one that was added is the
next one that is loaded. -/
def loadImport (src : Sources α) (imp : ModuleName) (s : Loading α) :
    Except LoadError (Loading α × List ModuleName) :=
  if imp ∈ s.done then .ok (s, [])
  else if src.hasModule imp.top then
    match loadSubModule src imp imp.prefixes s with
    | .error e => .error e
    | .ok (s', imports) => .ok (s', imports.reverse)
  else .error (.moduleLoading imp)

def loadModuleRecursive (src : Sources α) (fuel : Nat) :
    Except LoadError (List (ModuleName × α)) :=
  match drain .outOfFuel (loadImport src) fuel src.projectImports.reverse .empty with
  | .error e => .error e
  | .ok s => .ok s.asts.values.flatten

/-! ## Prefixes -/

theorem mem_prefixes {q n : ModuleName} : q ∈ n.prefixes ↔ q.top = n.top ∧ q.subs <+: n.subs := by
  obtain ⟨top, subs⟩ := q
  unfold ModuleName.prefixes
  rw [List.mem_map]
  constructor
  · rintro ⟨subs', hsubs, heq⟩
    obtain ⟨rfl, rfl⟩ := ModuleName.mk.inj heq
    exact ⟨rfl, (List.mem_inits _ _).mp hsubs⟩
  · rintro ⟨rfl, hsubs⟩
    exact ⟨subs, (List.mem_inits _ _).mpr hsubs, rfl⟩

theorem mem_prefixes_self (n : ModuleName) : n ∈ n.prefixes :=
  mem_prefixes.mpr ⟨rfl, List.prefix_rfl⟩

/-- Each submodule comes after the modules that it is in. -/
inductive ParentsFirst : List ModuleName → Prop where
  | nil : ParentsFirst []
  | concat {l : List ModuleName} {n : ModuleName} (hl : ParentsFirst l)
      (hn : ∀ q ∈ n.prefixes, q ≠ n → q ∈ l) : ParentsFirst (l ++ [n])

theorem ParentsFirst.append {l l' : List ModuleName} (hl : ParentsFirst l)
    (hl' : ParentsFirst l') : ParentsFirst (l ++ l') := by
  induction hl' with
  | nil =>
      rw [List.append_nil]
      exact hl
  | concat _ hn ih =>
      rw [← List.append_assoc]
      exact .concat ih fun q hq hne => List.mem_append_right _ (hn q hq hne)

/-- What is still to be loaded for an import comes after the modules that it is in, of which
some are done. -/
def Follows : List ModuleName → List ModuleName → Prop
  | _, [] => True
  | done, n :: names => (∀ q ∈ n.prefixes, q ≠ n → q ∈ done) ∧ Follows (done ++ [n]) names

theorem Follows.mono {done done' names : List ModuleName} (hdone : ∀ q ∈ done, q ∈ done')
    (h : Follows done names) : Follows done' names := by
  induction names generalizing done done' with
  | nil => trivial
  | cons n names ih =>
      refine ⟨fun q hq hne => hdone q (h.1 q hq hne), ih (fun q hq => ?_) h.2⟩
      rcases List.mem_append.mp hq with hq | hq
      · exact List.mem_append_left _ (hdone q hq)
      · exact List.mem_append_right _ hq

theorem follows_prefixes (done : List ModuleName) (n : ModuleName) : Follows done n.prefixes := by
  have hgen : ∀ (subs acc : List String) (done : List ModuleName),
      (∀ q ∈ (ModuleName.mk n.top acc).prefixes, q ≠ ⟨n.top, acc⟩ → q ∈ done) →
      Follows done (subs.inits.map fun x => ⟨n.top, acc ++ x⟩) := by
    intro subs
    induction subs with
    | nil =>
        intro acc done hacc
        refine ⟨?_, trivial⟩
        simp only [List.append_nil]
        exact hacc
    | cons sub subs ih =>
        intro acc done hacc
        rw [List.inits_cons, List.map_cons, List.map_map, List.append_nil]
        refine ⟨hacc, ?_⟩
        have hrest := ih (acc ++ [sub]) (done ++ [⟨n.top, acc⟩]) fun q hq hne => ?_
        · convert hrest using 3
          rw [Function.comp_apply, List.append_assoc]
          rfl
        · obtain ⟨htop, hsubs⟩ := mem_prefixes.mp hq
          rcases List.prefix_concat_iff.mp hsubs with heq | hprefix
          · obtain ⟨top, subs'⟩ := q
            obtain rfl : top = n.top := htop
            obtain rfl : subs' = acc ++ [sub] := heq
            exact absurd rfl hne
          · by_cases hq' : q = ⟨n.top, acc⟩
            · exact List.mem_append_right _ (List.mem_singleton.mpr hq')
            · exact List.mem_append_left _ (hacc q (mem_prefixes.mpr ⟨htop, hprefix⟩) hq')
  have h := hgen n.subs [] done fun q hq hne => ?_
  · exact h
  · obtain ⟨htop, hsubs⟩ := mem_prefixes.mp hq
    obtain ⟨top, subs⟩ := q
    obtain rfl : top = n.top := htop
    obtain rfl : subs = [] := List.prefix_nil.mp hsubs
    exact absurd rfl hne

/-! ## What a load has loaded -/

/-- The submodules that a project needs. -/
inductive Needed (src : Sources α) : ModuleName → Prop where
  | main {imp n : ModuleName} (himp : imp ∈ src.projectImports) (hn : n ∈ imp.prefixes) :
      Needed src n
  | imported {m imp n : ModuleName} {ast : α} (hm : Needed src m) (hast : src.getAst m = .ok ast)
      (himp : imp ∈ src.getImports m ast) (hn : n ∈ imp.prefixes) : Needed src n

def Loadable (src : Sources α) (n : ModuleName) : Prop :=
  src.hasModule n.top = true ∧ ∃ ast, src.getAst n = .ok ast

variable {src : Sources α}

/-- The syntax trees are those of the submodules that are done, each once, under its module. -/
structure Books (src : Sources α) (s : Loading α) : Prop where
  trees : ∀ top, ∀ x ∈ s.asts.getD top [], x.1.top = top ∧ src.getAst x.1 = .ok x.2
  done : ∀ n, n ∈ s.done ↔ n ∈ (s.asts.getD n.top []).map Prod.fst
  nodup : ∀ top, ((s.asts.getD top []).map Prod.fst).Nodup
  parents : ∀ top, ParentsFirst ((s.asts.getD top []).map Prod.fst)

theorem books_empty : Books src (.empty : Loading α) := by
  refine ⟨fun top x hx => absurd hx List.not_mem_nil, fun n => ?_, fun top => List.nodup_nil,
    fun top => .nil⟩
  exact ⟨fun h => absurd h List.not_mem_nil, fun h => absurd h List.not_mem_nil⟩

theorem Books.add {s : Loading α} (hs : Books src s) {n : ModuleName} {ast : α}
    (hn : n ∉ s.done) (hast : src.getAst n = .ok ast)
    (hparents : ∀ q ∈ n.prefixes, q ≠ n → q ∈ s.done) : Books src (s.add n ast) := by
  have hget : ∀ top, (s.add n ast).asts.getD top [] =
      if top = n.top then s.asts.getD n.top [] ++ [(n, ast)] else s.asts.getD top [] := by
    intro top
    unfold Loading.add
    rw [Dict.getD_set]
  refine ⟨fun top x hx => ?_, fun m => ?_, fun top => ?_, fun top => ?_⟩
  · rw [hget] at hx
    split at hx
    · rename_i htop
      subst htop
      rcases List.mem_append.mp hx with hx | hx
      · exact hs.trees _ x hx
      · obtain rfl := List.mem_singleton.mp hx
        exact ⟨rfl, hast⟩
    · exact hs.trees top x hx
  · change m ∈ s.done ++ [n] ↔ _
    rw [hget, List.mem_append, List.mem_singleton, hs.done m]
    split
    · rename_i htop
      rw [htop, List.map_append, List.mem_append]
      exact or_congr_right List.mem_singleton.symm
    · rename_i htop
      refine ⟨fun h => h.resolve_right ?_, .inl⟩
      rintro rfl
      exact htop rfl
  · rw [hget]
    split
    · rw [List.map_append, List.nodup_append]
      refine ⟨hs.nodup _, List.nodup_singleton _, ?_⟩
      rintro x hx y hy rfl
      obtain rfl : x = n := List.mem_singleton.mp hy
      exact hn ((hs.done x).mpr hx)
    · exact hs.nodup top
  · rw [hget]
    split
    · rw [List.map_append]
      refine .concat (hs.parents _) fun q hq hne => ?_
      obtain ⟨htop, -⟩ := mem_prefixes.mp hq
      rw [← htop]
      exact (hs.done q).mp (hparents q hq hne)
    · exact hs.parents top

/-- What loading an import adds. -/
structure Adds (src : Sources α) (names : List ModuleName) (s s' : Loading α)
    (imports : List ModuleName) : Prop where
  books : Books src s'
  kept : ∀ n ∈ s.done, n ∈ s'.done
  loaded : ∀ n ∈ names, n ∈ s'.done
  only : ∀ n ∈ s'.done, n ∈ s.done ∨ n ∈ names
  imports_iff : ∀ imp, imp ∈ imports ↔
    ∃ n ast, n ∈ s'.done ∧ n ∉ s.done ∧ src.getAst n = .ok ast ∧ imp ∈ src.getImports n ast

theorem Adds.skip {n : ModuleName} {names : List ModuleName} {s s' : Loading α}
    {imports : List ModuleName} (h : Adds src names s s' imports) (hn : n ∈ s.done) :
    Adds src (n :: names) s s' imports := by
  refine ⟨h.books, h.kept, fun m hm => ?_, fun m hm => ?_, h.imports_iff⟩
  · rcases List.mem_cons.mp hm with rfl | hm
    · exact h.kept m hn
    · exact h.loaded m hm
  · exact (h.only m hm).imp_right (List.mem_cons_of_mem _)

theorem Adds.load {n : ModuleName} {ast : α} {names : List ModuleName} {s s' : Loading α}
    {imports : List ModuleName} (h : Adds src names (s.add n ast) s' imports) (hn : n ∉ s.done)
    (hast : src.getAst n = .ok ast) :
    Adds src (n :: names) s s' (src.getImports n ast ++ imports) := by
  have hkept : ∀ m ∈ s.done, m ∈ s'.done := fun m hm => h.kept m (List.mem_append_left _ hm)
  have hdone : n ∈ s'.done := h.kept n (List.mem_append_right _ (List.mem_singleton_self n))
  refine ⟨h.books, hkept, fun m hm => ?_, fun m hm => ?_, fun i => ?_⟩
  · rcases List.mem_cons.mp hm with rfl | hm
    · exact hdone
    · exact h.loaded m hm
  · rcases h.only m hm with hm | hm
    · rcases List.mem_append.mp hm with hm | hm
      · exact .inl hm
      · exact .inr (List.mem_singleton.mp hm ▸ List.mem_cons_self)
    · exact .inr (List.mem_cons_of_mem _ hm)
  · rw [List.mem_append, h.imports_iff]
    constructor
    · rintro (hi | ⟨m, ast', hm, hnot, hast', hi⟩)
      · exact ⟨n, ast, hdone, hn, hast, hi⟩
      · exact ⟨m, ast', hm, fun hm' => hnot (List.mem_append_left _ hm'), hast', hi⟩
    · rintro ⟨m, ast', hm, hnot, hast', hi⟩
      by_cases hmn : m = n
      · subst hmn
        obtain rfl := Except.ok.inj (hast.symm.trans hast')
        exact .inl hi
      · refine .inr ⟨m, ast', hm, fun hm' => ?_, hast', hi⟩
        rcases List.mem_append.mp hm' with hm' | hm'
        · exact hnot hm'
        · exact hmn (List.mem_singleton.mp hm')

theorem loadSubModule_ok {imp : ModuleName} {names : List ModuleName} {s s' : Loading α}
    {imports : List ModuleName} (hs : Books src s) (hfollows : Follows s.done names)
    (h : loadSubModule src imp names s = .ok (s', imports)) : Adds src names s s' imports := by
  induction names generalizing s imports with
  | nil =>
      cases h
      refine ⟨hs, fun n hn => hn, fun n hn => absurd hn List.not_mem_nil, fun n hn => .inl hn,
        fun imp => ⟨fun h => absurd h List.not_mem_nil, ?_⟩⟩
      rintro ⟨n, ast, hn, hnot, -⟩
      exact absurd hn hnot
  | cons n names ih =>
      obtain ⟨hparents, hrest⟩ := hfollows
      rw [loadSubModule] at h
      split at h
      · rename_i hdone
        have hmono : ∀ q ∈ s.done ++ [n], q ∈ s.done := by
          intro q hq
          rcases List.mem_append.mp hq with hq | hq
          · exact hq
          · exact List.mem_singleton.mp hq ▸ hdone
        exact (ih hs (hrest.mono hmono) h).skip hdone
      · rename_i hdone
        split at h
        · cases h
        rename_i ast hast
        split at h
        · cases h
        rename_i s₁ imports' hsub
        cases h
        exact (ih (hs.add hdone hast hparents) hrest hsub).load hdone hast

/-- The books are right; what is done is needed and can be loaded; and what is imported is done
or still to be loaded. -/
structure Inv (src : Sources α) (s : Loading α) (work : List ModuleName) : Prop where
  books : Books src s
  needed : ∀ n ∈ s.done, Needed src n ∧ src.hasModule n.top = true
  pending : ∀ imp ∈ work, ∀ n ∈ imp.prefixes, Needed src n
  main : ∀ imp ∈ src.projectImports, imp ∈ work ∨ ∀ n ∈ imp.prefixes, n ∈ s.done
  imported : ∀ m ∈ s.done, ∀ ast, src.getAst m = .ok ast → ∀ imp ∈ src.getImports m ast,
    imp ∈ work ∨ ∀ n ∈ imp.prefixes, n ∈ s.done

theorem inv_init : Inv src .empty src.projectImports.reverse where
  books := books_empty
  needed _ hn := absurd hn List.not_mem_nil
  pending _ himp _ hn := .main (List.mem_reverse.mp himp) hn
  main _ himp := .inl (List.mem_reverse.mpr himp)
  imported _ hm := absurd hm List.not_mem_nil

/-- A submodule that is done has its parents done. -/
theorem Books.prefixes_done {s : Loading α} (hs : Books src s) {n q : ModuleName}
    (hn : n ∈ s.done) (hq : q ∈ n.prefixes) : q ∈ s.done := by
  obtain ⟨htop, -⟩ := mem_prefixes.mp hq
  rw [hs.done, htop]
  have hlist : ∀ l, ParentsFirst l → n ∈ l → q ∈ l := by
    intro l hl
    induction hl with
    | nil => exact fun h => absurd h List.not_mem_nil
    | concat hl hparents ih =>
        intro hmem
        rcases List.mem_append.mp hmem with hmem | hmem
        · exact List.mem_append_left _ (ih hmem)
        · obtain rfl := List.mem_singleton.mp hmem
          by_cases hqn : q = n
          · exact List.mem_append_right _ (List.mem_singleton.mpr hqn)
          · exact List.mem_append_left _ (hparents q hq hqn)
  exact hlist _ (hs.parents _) ((hs.done n).mp hn)

theorem Inv.loadImport {imp : ModuleName} {work : List ModuleName} {s s' : Loading α}
    {push : List ModuleName} (hs : Inv src s (imp :: work))
    (h : loadImport src imp s = .ok (s', push)) : Inv src s' (push ++ work) := by
  unfold ModuleLoading.loadImport at h
  split at h
  · rename_i hdone
    cases h
    have hrest : ∀ i, i ∈ imp :: work ∨ (∀ n ∈ i.prefixes, n ∈ s.done) →
        i ∈ [] ++ work ∨ ∀ n ∈ i.prefixes, n ∈ s.done := by
      rintro i (hi | hi)
      · rcases List.mem_cons.mp hi with rfl | hi
        · exact .inr fun n hn => hs.books.prefixes_done hdone hn
        · exact .inl hi
      · exact .inr hi
    exact ⟨hs.books, hs.needed, fun i hi => hs.pending i (List.mem_cons_of_mem _ hi),
      fun i hi => hrest i (hs.main i hi),
      fun m hm ast hast i hi => hrest i (hs.imported m hm ast hast i hi)⟩
  · split at h
    · rename_i hmodule
      split at h
      · cases h
      rename_i s₁ imports hsub
      cases h
      have hadds := loadSubModule_ok hs.books (follows_prefixes _ _) hsub
      have hneeded : ∀ n ∈ s'.done, Needed src n ∧ src.hasModule n.top = true := by
        intro n hn
        rcases hadds.only n hn with hn | hn
        · exact hs.needed n hn
        · refine ⟨hs.pending imp List.mem_cons_self n hn, ?_⟩
          rw [(mem_prefixes.mp hn).1]
          exact hmodule
      have hrest : ∀ i, i ∈ imp :: work ∨ (∀ n ∈ i.prefixes, n ∈ s.done) →
          i ∈ imports.reverse ++ work ∨ ∀ n ∈ i.prefixes, n ∈ s'.done := by
        rintro i (hi | hi)
        · rcases List.mem_cons.mp hi with rfl | hi
          · exact .inr hadds.loaded
          · exact .inl (List.mem_append_right _ hi)
        · exact .inr fun n hn => hadds.kept n (hi n hn)
      refine ⟨hadds.books, hneeded, fun i hi n hn => ?_, fun i hi => hrest i (hs.main i hi),
        fun m hm ast hast i hi => ?_⟩
      · rcases List.mem_append.mp hi with hi | hi
        · obtain ⟨m, ast, hm, -, hast, hi⟩ := (hadds.imports_iff i).mp (List.mem_reverse.mp hi)
          exact .imported (hneeded m hm).1 hast hi hn
        · exact hs.pending i (List.mem_cons_of_mem _ hi) n hn
      · by_cases hold : m ∈ s.done
        · exact hrest i (hs.imported m hold ast hast i hi)
        · refine .inl (List.mem_append_left _ (List.mem_reverse.mpr ?_))
          exact (hadds.imports_iff i).mpr ⟨m, ast, hm, hold, hast, hi⟩
    · cases h

/-- When nothing is left to be loaded, what is done is what is needed. -/
theorem Inv.done_iff {s : Loading α} (hs : Inv src s []) (n : ModuleName) :
    n ∈ s.done ↔ Needed src n := by
  refine ⟨fun hn => (hs.needed n hn).1, fun hn => ?_⟩
  induction hn with
  | main himp hn => exact (hs.main _ himp).resolve_left List.not_mem_nil _ hn
  | imported _ hast himp hn ih =>
      exact (hs.imported _ ih _ hast _ himp).resolve_left List.not_mem_nil _ hn

theorem parentsFirst_flatten {ls : List (List ModuleName)} (h : ∀ l ∈ ls, ParentsFirst l) :
    ParentsFirst ls.flatten := by
  induction ls with
  | nil => exact .nil
  | cons l ls ih =>
      rw [List.flatten_cons]
      exact (h l List.mem_cons_self).append (ih fun l' hl' => h l' (List.mem_cons_of_mem _ hl'))

theorem Books.mem_values {s : Loading α} (hs : Books src s) {l : List (ModuleName × α)}
    (hl : l ∈ s.asts.values) :
    (∀ x ∈ l, src.getAst x.1 = .ok x.2) ∧ (l.map Prod.fst).Nodup ∧
      ParentsFirst (l.map Prod.fst) ∧ ∀ n ∈ l.map Prod.fst, n ∈ s.done := by
  obtain ⟨top, htop⟩ := Dict.mem_values.mp hl
  have hget : s.asts.getD top [] = l := Dict.getD_of_get? htop []
  refine ⟨fun x hx => (hs.trees top x (hget ▸ hx)).2, hget ▸ hs.nodup top, hget ▸ hs.parents top,
    fun n hn => ?_⟩
  obtain ⟨x, hx, rfl⟩ := List.mem_map.mp hn
  rw [hs.done, (hs.trees top x (hget ▸ hx)).1, hget]
  exact hn

theorem Books.nodup_flatten {s : Loading α} (hs : Books src s) :
    (s.asts.values.flatten.map Prod.fst).Nodup := by
  rw [List.map_flatten, List.nodup_flatten]
  constructor
  · intro l hl
    obtain ⟨l', hl', rfl⟩ := List.mem_map.mp hl
    exact (hs.mem_values hl').2.1
  · unfold Dict.values
    rw [List.map_map, List.pairwise_map]
    refine (List.pairwise_map.mp s.asts.nodup).imp_of_mem fun {a b} ha hb hne => ?_
    have htop : ∀ c ∈ s.asts.items, ∀ n ∈ c.2.map Prod.fst, n.top = c.1 := by
      intro c hc n hn
      have hget : s.asts.getD c.1 [] = c.2 := Dict.getD_of_get? (Dict.get?_eq_some_iff.mpr hc) []
      obtain ⟨x, hx, rfl⟩ := List.mem_map.mp hn
      exact (hs.trees c.1 x (hget ▸ hx)).1
    intro n hna hnb
    exact hne ((htop a ha n hna).symm.trans (htop b hb n hnb))

theorem loadModuleRecursive_ok {fuel : Nat} {result : List (ModuleName × α)}
    (h : loadModuleRecursive src fuel = .ok result) :
    ∃ s, Inv src s [] ∧ result = s.asts.values.flatten := by
  unfold loadModuleRecursive at h
  split at h
  · cases h
  rename_i s hs
  cases h
  exact ⟨s, drain_invariant (fun _ _ _ _ _ hI hstep => hI.loadImport hstep) hs inv_init, rfl⟩

theorem Books.mem_flatten {s : Loading α} (hs : Books src s) {n : ModuleName} :
    n ∈ s.asts.values.flatten.map Prod.fst ↔ n ∈ s.done := by
  rw [List.map_flatten, List.mem_flatten]
  constructor
  · rintro ⟨l, hl, hn⟩
    obtain ⟨l', hl', rfl⟩ := List.mem_map.mp hl
    exact (hs.mem_values hl').2.2.2 n hn
  · intro hn
    have hn' := (hs.done n).mp hn
    cases hget : s.asts.get? n.top with
    | none =>
        rw [Dict.getD_of_not_mem (Dict.not_mem_iff.mpr hget)] at hn'
        exact absurd hn' List.not_mem_nil
    | some l =>
        rw [Dict.getD_of_get? hget] at hn'
        exact ⟨_, List.mem_map_of_mem (Dict.mem_values.mpr ⟨n.top, hget⟩), hn'⟩

/-- **A load is exact.** What a load that ends returns are the submodules that are needed, each
once, with its syntax tree, and after the modules that it is in. -/
theorem load_exactly {fuel : Nat} {result : List (ModuleName × α)}
    (h : loadModuleRecursive src fuel = .ok result) :
    (∀ n, n ∈ result.map Prod.fst ↔ Needed src n) ∧ (result.map Prod.fst).Nodup ∧
      ParentsFirst (result.map Prod.fst) ∧ ∀ x ∈ result, src.getAst x.1 = .ok x.2 := by
  obtain ⟨s, hs, rfl⟩ := loadModuleRecursive_ok h
  refine ⟨fun n => hs.books.mem_flatten.trans (hs.done_iff n), hs.books.nodup_flatten, ?_,
    fun x hx => ?_⟩
  · rw [List.map_flatten]
    refine parentsFirst_flatten fun l hl => ?_
    obtain ⟨l', hl', rfl⟩ := List.mem_map.mp hl
    exact (hs.books.mem_values hl').2.2.1
  · obtain ⟨l, hl, hxl⟩ := List.mem_flatten.mp hx
    exact (hs.books.mem_values hl).1 x hxl

/-! ## When a load succeeds -/

theorem loadSubModule_succeeds {imp : ModuleName} {names : List ModuleName}
    (h : ∀ n ∈ names, ∃ ast, src.getAst n = .ok ast) (s : Loading α) :
    ∃ s' imports, loadSubModule src imp names s = .ok (s', imports) := by
  induction names generalizing s with
  | nil => exact ⟨s, [], rfl⟩
  | cons n names ih =>
      have hrest := ih fun m hm => h m (List.mem_cons_of_mem _ hm)
      obtain ⟨ast, hast⟩ := h n List.mem_cons_self
      unfold loadSubModule
      split
      · exact hrest s
      · obtain ⟨s', imports, hsub⟩ := hrest (s.add n ast)
        simp only [hast, hsub]
        exact ⟨s', _, rfl⟩

/-- The files that are not loaded yet. -/
def unloaded (files : List ModuleName) (s : Loading α) : List ModuleName :=
  files.filter fun n => n ∉ s.done

theorem unloaded_lt {files : List ModuleName} {s s' : Loading α} {n : ModuleName}
    (hkept : ∀ m ∈ s.done, m ∈ s'.done) (hfile : n ∈ files) (hnew : n ∈ s'.done)
    (hold : n ∉ s.done) : (unloaded files s').length < (unloaded files s).length := by
  have hsub : unloaded files s' = (unloaded files s).filter fun n => n ∉ s'.done := by
    unfold unloaded
    rw [List.filter_filter]
    refine List.filter_congr fun m _ => ?_
    rw [← Bool.decide_and, decide_eq_decide]
    exact ⟨fun hm => ⟨hm, fun hm' => hm (hkept m hm')⟩, And.left⟩
  rw [hsub, List.length_filter_lt_length_iff_exists]
  refine ⟨n, List.mem_filter.mpr ⟨hfile, decide_eq_true hold⟩, ?_⟩
  rw [decide_eq_true_eq]
  exact not_not.mpr hnew

/-- **A load succeeds if it can.** As there are finitely many files, the load ends and succeeds
just if each submodule that is needed can be loaded, whatever imports what. -/
theorem load_succeeds_iff {files : List ModuleName}
    (hfiles : ∀ n ast, src.getAst n = .ok ast → n ∈ files) :
    (∃ fuel result, loadModuleRecursive src fuel = .ok result) ↔
      ∀ n, Needed src n → Loadable src n := by
  constructor
  · rintro ⟨fuel, result, h⟩ n hn
    obtain ⟨s, hs, rfl⟩ := loadModuleRecursive_ok h
    have hdone := (hs.done_iff n).mpr hn
    obtain ⟨x, hx, rfl⟩ := List.mem_map.mp (hs.books.mem_flatten.mpr hdone)
    obtain ⟨l, hl, hxl⟩ := List.mem_flatten.mp hx
    exact ⟨(hs.needed x.1 hdone).2, x.2, (hs.books.mem_values hl).1 x hxl⟩
  · intro hload
    have hstep : ∀ imp work s, Inv src s (imp :: work) → ∃ s' push,
        loadImport src imp s = .ok (s', push) ∧ Inv src s' (push ++ work) ∧
        ((unloaded files s').length < (unloaded files s).length ∨
          push = [] ∧ (unloaded files s').length = (unloaded files s).length) := by
      intro imp work s hs
      by_cases hdone : imp ∈ s.done
      · have hskip : loadImport src imp s = .ok (s, []) := if_pos hdone
        exact ⟨s, [], hskip, hs.loadImport hskip, .inr ⟨rfl, rfl⟩⟩
      · have hneeded := hs.pending imp List.mem_cons_self
        obtain ⟨hmodule, ast, hast⟩ := hload imp (hneeded imp (mem_prefixes_self imp))
        have hsucceeds : ∃ s' imports, loadSubModule src imp imp.prefixes s = .ok (s', imports) :=
          loadSubModule_succeeds (fun n hn => (hload n (hneeded n hn)).2) s
        obtain ⟨s', imports, hsub⟩ := hsucceeds
        have hadds := loadSubModule_ok hs.books (follows_prefixes _ _) hsub
        have himport : loadImport src imp s = .ok (s', imports.reverse) := by
          unfold loadImport
          rw [if_neg hdone, if_pos hmodule, hsub]
        refine ⟨s', _, himport, hs.loadImport himport, .inl ?_⟩
        exact unloaded_lt hadds.kept (hfiles imp ast hast)
          (hadds.loaded imp (mem_prefixes_self imp)) hdone
    have hdrain : ∃ fuel s, drain .outOfFuel (loadImport src) fuel src.projectImports.reverse
        .empty = .ok s ∧ Inv src s [] :=
      drain_of_measure _ (fun s => (unloaded files s).length) hstep _ _ inv_init
    obtain ⟨fuel, s, hs, -⟩ := hdrain
    refine ⟨fuel, s.asts.values.flatten, ?_⟩
    unfold loadModuleRecursive
    rw [hs]

/-- A project that imports `web::page`, which imports `std` and itself. -/
def webProject : Sources Unit where
  autostd := true
  mainImports := [⟨"web", ["page"]⟩]
  hasModule top := top = "web" ∨ top = "std"
  getAst n := if n ∈ [std, ⟨"web", []⟩, ⟨"web", ["page"]⟩] then .ok () else .error .invalidModule
  importStatements _ := [⟨"web", ["page"]⟩]

theorem load_exactly_webProject : ∃ result, loadModuleRecursive webProject 10 = .ok result ∧
    result.map Prod.fst = [⟨"web", []⟩, ⟨"web", ["page"]⟩, std] ∧
    (result.map Prod.fst).Nodup := by
  have h : loadModuleRecursive webProject 10 =
      .ok [(⟨"web", []⟩, ()), (⟨"web", ["page"]⟩, ()), (std, ())] := rfl
  exact ⟨_, h, rfl, (load_exactly h).2.1⟩

theorem load_succeeds_iff_webProject :
    (∃ fuel result, loadModuleRecursive webProject fuel = .ok result) ∧
      ∀ n, Needed webProject n → Loadable webProject n := by
  have hfiles : ∀ n ast, webProject.getAst n = .ok ast →
      n ∈ [std, ⟨"web", []⟩, ⟨"web", ["page"]⟩] := by
    intro n ast h
    by_contra hn
    have herror : webProject.getAst n = .error .invalidModule := if_neg hn
    cases herror.symm.trans h
  have hload : ∃ fuel result, loadModuleRecursive webProject fuel = .ok result := ⟨10, _, rfl⟩
  exact ⟨hload, (load_succeeds_iff hfiles).mp hload⟩

end ModuleLoading

end Inmanta
