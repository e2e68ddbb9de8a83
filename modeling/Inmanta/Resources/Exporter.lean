import Inmanta.Util.StableDepthFirst

/-!
# Exporting the resources of a model

The exporter makes a resource of each instance of a registered type, sorts the
resources into their sets, carries the dependencies between the instances over
to the resources, lets the dependency managers add to them, and checks that the
graph has no cycle. Any of this may fail, and then nothing is exported.

The search for a cycle is `dfs` with another exception (`findCycle_reports`).
What goes to the server is closed under dependencies and has no cycles
(`export_sound`), and a cycle that is reported is one (`export_cycle`).
-/

namespace Inmanta

namespace Exporter

open StableDepthFirst (Edge IsCycle CycleFrom Ordered CycleException Blames unseen
  unseen_cons_lt dfs dfsEach dfs_blames dfsEach_blames dfsEach_extends dfsEach_error_iff)

/-! ## The search for a cycle -/

structure DependencyCycleException (α : Type) where
  start : α
  cycle : List α
  running : Bool
  deriving DecidableEq

section

variable {α : Type} [DecidableEq α]

def DependencyCycleException.new (start : α) : DependencyCycleException α := ⟨start, [start], true⟩

def DependencyCycleException.addToCycle (e : DependencyCycleException α) (node : α) :
    DependencyCycleException α :=
  if node = e.start then { e with running := false }
  else if e.running then { e with cycle := e.cycle ++ [node] }
  else e

mutual

def findCycle (requires : Dict α (List α)) (current : α) (working done : List α) :
    Except (DependencyCycleException α) (List α) :=
  if current ∈ done then .ok done
  else if current ∈ working then .error (.new current)
  else match _hget : requires.get? current with
    | none => .ok (done ++ [current])
    | some deps =>
        match findCycleEach requires deps (current :: working) done with
        | .ok done => .ok (done ++ [current])
        | .error e => .error (e.addToCycle current)
termination_by ((unseen requires working).length, 0, 0)
decreasing_by exact Prod.Lex.left _ _ (unseen_cons_lt ‹_› ‹_›)

def findCycleEach (requires : Dict α (List α)) (nodes : List α) (working done : List α) :
    Except (DependencyCycleException α) (List α) :=
  match nodes with
  | [] => .ok done
  | node :: nodes =>
      match findCycle requires node working done with
      | .ok done => findCycleEach requires nodes working done
      | .error e => .error e
termination_by ((unseen requires working).length, 1, nodes.length)

end

/-- The loop over the resources that are not done. -/
def validateGraph (requires : Dict α (List α)) : Except (DependencyCycleException α) (List α) :=
  findCycleEach requires requires.keys [] []

variable {requires : Dict α (List α)}

/-- The two exceptions tell the same: one lists the nodes in the order of the edges, the other
in the order in which the searches are left. -/
structure Reports (e : CycleException α) (e' : DependencyCycleException α) : Prop where
  cycle : e'.cycle = e.nodes.reverse
  start : e.nodes.getLast? = some e'.start
  running : e'.running = !e.done

theorem Reports.add {e : CycleException α} {e' : DependencyCycleException α} (h : Reports e e')
    {node : α} {targets working : List α} (hblames : Blames requires targets (node :: working) e) :
    Reports (e.add node) (e'.addToCycle node) := by
  obtain ⟨start, cycle, running⟩ := e'
  obtain ⟨hcycle, hstart, hrunning⟩ := h
  cases hblames with
  | complete hfirst hcycle' hreach =>
      obtain rfl : running = false := hrunning
      refine ⟨?_, ?_, ?_⟩
      · unfold DependencyCycleException.addToCycle
        split
        · exact hcycle
        · exact hcycle
      · unfold DependencyCycleException.addToCycle
        split
        · exact hstart
        · exact hstart
      · unfold DependencyCycleException.addToCycle
        split
        · rfl
        · rfl
  | @pending first last chain hfirst hhead hlast hchain hnodup hnew hreach =>
      obtain rfl : running = true := hrunning
      rw [List.getLast?_append] at hstart
      obtain rfl : last = start := by simpa using hstart
      unfold DependencyCycleException.addToCycle CycleException.add
      simp only [Bool.false_eq_true, if_false, if_true]
      by_cases hnode : node = last
      · subst hnode
        rw [if_pos rfl, if_neg (by simp)]
        exact ⟨hcycle, by simp, rfl⟩
      · have hnot : node ∉ chain ++ [last] := by
          rw [List.mem_append, List.mem_singleton, not_or]
          exact ⟨fun hc => hnew node hc List.mem_cons_self, hnode⟩
        simp only at hcycle
        rw [if_neg hnode, if_pos hnot]
        refine ⟨?_, ?_, rfl⟩
        · simp only [List.reverse_cons, hcycle]
        · rw [← List.cons_append, List.getLast?_append]
          rfl

theorem findCycle_of_none {current : α} {working done : List α} (hdone : current ∉ done)
    (hworking : current ∉ working) (hget : requires.get? current = none) :
    findCycle requires current working done = .ok (done ++ [current]) := by
  unfold findCycle
  rw [if_neg hdone, if_neg hworking]
  split
  · rfl
  · next hget' => cases hget.symm.trans hget'

theorem findCycle_of_some {current : α} {working done deps : List α} (hdone : current ∉ done)
    (hworking : current ∉ working) (hget : requires.get? current = some deps) :
    (∀ out, findCycleEach requires deps (current :: working) done = .ok out →
      findCycle requires current working done = .ok (out ++ [current])) ∧
    ∀ e, findCycleEach requires deps (current :: working) done = .error e →
      findCycle requires current working done = .error (e.addToCycle current) := by
  constructor
  · intro out hout
    unfold findCycle
    rw [if_neg hdone, if_neg hworking]
    split
    · next hget' => cases hget.symm.trans hget'
    · next hget' =>
        obtain rfl := Option.some.inj (hget.symm.trans hget')
        rw [hout]
  · intro e he
    unfold findCycle
    rw [if_neg hdone, if_neg hworking]
    split
    · next hget' => cases hget.symm.trans hget'
    · next hget' =>
        obtain rfl := Option.some.inj (hget.symm.trans hget')
        rw [he]

theorem dfs_of_none {current : α} {working done : List α} (hdone : current ∉ done)
    (hworking : current ∉ working) (hget : requires.get? current = none) :
    dfs requires current working done = .ok (done ++ [current]) := by
  unfold dfs
  rw [if_neg hdone, if_neg hworking]
  split
  · rfl
  · next hget' => cases hget.symm.trans hget'

theorem dfs_of_some {current : α} {working done deps : List α} (hdone : current ∉ done)
    (hworking : current ∉ working) (hget : requires.get? current = some deps) :
    (∀ out, dfsEach requires deps (current :: working) done = .ok out →
      dfs requires current working done = .ok (out ++ [current])) ∧
    ∀ e, dfsEach requires deps (current :: working) done = .error e →
      dfs requires current working done = .error (e.add current) := by
  constructor
  · intro out hout
    unfold dfs
    rw [if_neg hdone, if_neg hworking]
    split
    · next hget' => cases hget.symm.trans hget'
    · next hget' =>
        obtain rfl := Option.some.inj (hget.symm.trans hget')
        rw [hout]
  · intro e he
    unfold dfs
    rw [if_neg hdone, if_neg hworking]
    split
    · next hget' => cases hget.symm.trans hget'
    · next hget' =>
        obtain rfl := Option.some.inj (hget.symm.trans hget')
        rw [he]

mutual

/-- The search agrees with `dfs`, step by step. -/
theorem findCycle_reports (requires : Dict α (List α)) (current : α) (working done : List α) :
    (∃ out, dfs requires current working done = .ok out ∧
      findCycle requires current working done = .ok out) ∨
    ∃ e e', dfs requires current working done = .error e ∧
      findCycle requires current working done = .error e' ∧ Reports e e' := by
  by_cases hdone : current ∈ done
  · unfold dfs findCycle
    rw [if_pos hdone, if_pos hdone]
    exact .inl ⟨done, rfl, rfl⟩
  by_cases hworking : current ∈ working
  · unfold dfs findCycle
    rw [if_neg hdone, if_neg hdone, if_pos hworking, if_pos hworking]
    exact .inr ⟨_, _, rfl, rfl, rfl, rfl, rfl⟩
  cases hget : requires.get? current with
  | none =>
      exact .inl ⟨_, dfs_of_none hdone hworking hget, findCycle_of_none hdone hworking hget⟩
  | some deps =>
      have hdfs' := dfs_of_some hdone hworking hget
      have hfind' := findCycle_of_some hdone hworking hget
      rcases findCycleEach_reports requires deps (current :: working) done with
        ⟨out, hdfs, hfind⟩ | ⟨e, e', hdfs, hfind, hreports⟩
      · exact .inl ⟨_, hdfs'.1 out hdfs, hfind'.1 out hfind⟩
      · have hblames := dfsEach_blames deps (current :: working) done hdfs
        exact .inr ⟨_, _, hdfs'.2 e hdfs, hfind'.2 e' hfind, hreports.add hblames⟩
termination_by ((unseen requires working).length, 0, 0)
decreasing_by exact Prod.Lex.left _ _ (unseen_cons_lt ‹_› ‹_›)

theorem findCycleEach_reports (requires : Dict α (List α)) (nodes : List α)
    (working done : List α) :
    (∃ out, dfsEach requires nodes working done = .ok out ∧
      findCycleEach requires nodes working done = .ok out) ∨
    ∃ e e', dfsEach requires nodes working done = .error e ∧
      findCycleEach requires nodes working done = .error e' ∧ Reports e e' := by
  unfold dfsEach findCycleEach
  cases nodes with
  | nil => exact .inl ⟨done, rfl, rfl⟩
  | cons node nodes =>
      simp only
      rcases findCycle_reports requires node working done with
        ⟨out, hdfs, hfind⟩ | ⟨e, e', hdfs, hfind, hreports⟩
      · rw [hdfs, hfind]
        exact findCycleEach_reports requires nodes working out
      · rw [hdfs, hfind]
        exact .inr ⟨e, e', rfl, rfl, hreports⟩
termination_by ((unseen requires working).length, 1, nodes.length)

end

/-- A graph passes just if it has no cycle. -/
theorem validateGraph_ok_iff (requires : Dict α (List α)) :
    (∃ done, validateGraph requires = .ok done) ↔
      ∀ x, ¬ Relation.TransGen (Edge requires) x x := by
  have hiff : (∃ done, validateGraph requires = .ok done) ↔ ¬ CycleFrom requires requires.keys := by
    rw [← dfsEach_error_iff]
    unfold validateGraph
    rcases findCycleEach_reports requires requires.keys [] [] with
      ⟨out, hdfs, hfind⟩ | ⟨e, e', hdfs, hfind, -⟩
    · rw [hdfs, hfind]
      refine iff_of_true ⟨out, rfl⟩ ?_
      rintro ⟨e, h⟩
      cases h
    · rw [hdfs, hfind]
      refine iff_of_false ?_ fun h => h ⟨e, rfl⟩
      rintro ⟨done, h⟩
      cases h
  rw [hiff]
  constructor
  · intro h x hcyc
    obtain ⟨y, ⟨targets, hget, -⟩, -⟩ := Relation.TransGen.head'_iff.mp hcyc
    exact h ⟨x, Dict.mem_keys.mpr (Dict.mem_of_get? hget), x, .refl, hcyc⟩
  · rintro h ⟨-, -, x, -, hcyc⟩
    exact h x hcyc

/-- The cycle that is reported, in reverse. -/
theorem validateGraph_error {e : DependencyCycleException α}
    (h : validateGraph requires = .error e) : IsCycle requires e.cycle.reverse := by
  unfold validateGraph at h
  rcases findCycleEach_reports requires requires.keys [] [] with
    ⟨out, -, hfind⟩ | ⟨e₀, e', hdfs, hfind, hreports⟩
  · cases h.symm.trans hfind
  · obtain rfl := Except.error.inj (h.symm.trans hfind)
    cases dfsEach_blames _ [] [] hdfs with
    | pending _ _ hlast => cases hlast
    | complete hfirst hcycle hreach =>
        rw [hreports.cycle, List.reverse_reverse]
        exact hcycle

end

/-! ## From instances to resources -/

/-- What becomes of an instance (`Resource.create_from_model`). -/
inductive Created (κ : Type) where
  | resource (id : κ) (isUndefined : Bool)
  /-- `UnknownException`: the id contains an unknown. -/
  | unknown
  /-- `IgnoreResourceException`. -/
  | ignored
  | failed

/-- What a dependency manager may put into a requires relation. -/
inductive Requirement (τ κ : Type) where
  | str (text : τ)
  | resource (id : κ)
  | id (id : κ)
  | other

inductive LoadError (κ : Type) where
  | createFailed
  | existsMoreThanOnce (id : κ)
  | multipleResourceSets (id : κ)
  /-- `cleanup` cannot make an id of a requirement. -/
  | notAnId
  /-- The requirement is not a resource that is exported. -/
  | keyError (id : κ)

inductive ExportError (κ : Type) where
  | load (e : LoadError κ)
  | dependencyCycle (e : DependencyCycleException κ)

/-- The model, as far as the exporter looks at it. -/
structure Model (ι τ κ : Type) where
  /-- The registered types that are in the model, with their instances. -/
  instances : List (String × List ι)
  create : String → ι → Created κ
  requires : ι → List ι
  /-- The resource sets: their name and their resources. -/
  resourceSets : List (String × List ι)
  softDelete : Bool
  /-- The dependency managers: each may change the relation as it likes. -/
  depManagers : List (Dict κ (List (Requirement τ κ)) → Dict κ (List (Requirement τ κ)))
  /-- `Id.parse_id`. -/
  parseId : τ → Option κ

/-- What `_load_resources` has got so far: the resources, whether each is undefined, and the
resource of each instance. -/
structure Loaded (ι κ : Type) where
  resources : List κ
  resourceState : Dict κ Bool
  resourceMapping : Dict ι κ

section

variable {ι τ κ : Type} [DecidableEq ι] [DecidableEq κ]

def Loaded.empty : Loaded ι κ := ⟨[], .empty, .empty⟩

def loadInstance (created : Created κ) (s : Loaded ι κ) (instance_ : ι) :
    Except (LoadError κ) (Loaded ι κ) :=
  match created with
  | .resource id isUndefined =>
      if id ∈ s.resources then .error (.existsMoreThanOnce id)
      else .ok
        { resources := s.resources ++ [id]
          resourceState := s.resourceState.set id isUndefined
          resourceMapping := s.resourceMapping.set instance_ id }
  | .unknown => .ok s
  | .ignored => .ok s
  | .failed => .error .createFailed

def loadInstances (create : ι → Created κ) : List ι → Loaded ι κ →
    Except (LoadError κ) (Loaded ι κ)
  | [], s => .ok s
  | i :: is, s =>
      match loadInstance (create i) s i with
      | .ok s => loadInstances create is s
      | .error e => .error e

/-- The first loop of `_load_resources`. -/
def loadTypes (create : String → ι → Created κ) : List (String × List ι) → Loaded ι κ →
    Except (LoadError κ) (Loaded ι κ)
  | [], s => .ok s
  | (type, is) :: types, s =>
      match loadInstances (create type) is s with
      | .ok s => loadTypes create types s
      | .error e => .error e

/-- The sets of the resources, and the sets that are to be removed. -/
structure Sets (κ : Type) where
  resourceSets : Dict κ String
  removed : List String

/-- The resources of one set; the flag says whether the set is empty so far. -/
def loadSet (mapping : Dict ι κ) (name : String) : List ι → Dict κ String → Bool →
    Except (LoadError κ) (Dict κ String × Bool)
  | [], sets, emptySet => .ok (sets, emptySet)
  | i :: is, sets, emptySet =>
      match mapping.get? i with
      | none => loadSet mapping name is sets emptySet
      | some id =>
          match sets.get? id with
          | some other =>
              if other ≠ name then .error (.multipleResourceSets id)
              else loadSet mapping name is (sets.set id name) false
          | none => loadSet mapping name is (sets.set id name) false

def loadResourceSets (mapping : Dict ι κ) (softDelete : Bool) :
    List (String × List ι) → Sets κ → Except (LoadError κ) (Sets κ)
  | [], s => .ok s
  | (name, is) :: sets, s =>
      match loadSet mapping name is s.resourceSets true with
      | .error e => .error e
      | .ok (resourceSets, true) =>
          loadResourceSets mapping softDelete sets ⟨resourceSets, s.removed.insert name⟩
      | .ok (resourceSets, false) =>
          loadResourceSets mapping softDelete sets
            ⟨resourceSets, if softDelete then discard s.removed name else s.removed⟩

/-- `Resource.convert_requires`: the resources that no instance is mapped to any more keep
having none. -/
def convertRequires (modelRequires : ι → List ι) (s : Loaded ι κ) : Dict κ (List κ) :=
  s.resourceMapping.items.foldl (fun requires (i, id) =>
      requires.set id ((modelRequires i).filterMap s.resourceMapping.get?))
    (Dict.ofList (s.resources.map fun id => (id, [])))

/-! ## Dependency managers -/

def cleanup (parseId : τ → Option κ) : Requirement τ κ → Except (LoadError κ) κ
  | .str text =>
      match parseId text with
      | some id => .ok id
      | none => .error .notAnId
  | .resource id => .ok id
  | .id id => .ok id
  | .other => .error .notAnId

def cleanupAll (parseId : τ → Option κ) (isResource : κ → Bool) :
    List (Requirement τ κ) → Except (LoadError κ) (List κ)
  | [] => .ok []
  | r :: rs =>
      match cleanup parseId r with
      | .error e => .error e
      | .ok id =>
          if isResource id then
            match cleanupAll parseId isResource rs with
            | .ok ids => .ok (id :: ids)
            | .error e => .error e
          else .error (.keyError id)

/-- The last loop of `_call_dep_manager`. -/
def cleanupEach (parseId : τ → Option κ) (isResource : κ → Bool) :
    List (κ × List (Requirement τ κ)) → Except (LoadError κ) (List (κ × List κ))
  | [] => .ok []
  | (id, reqs) :: rest =>
      match cleanupAll parseId isResource reqs with
      | .error e => .error e
      | .ok ids =>
          match cleanupEach parseId isResource rest with
          | .ok rest => .ok ((id, ids) :: rest)
          | .error e => .error e

def callDepManager (model : Model ι τ κ) (requires : Dict κ (List κ)) :
    Except (LoadError κ) (Dict κ (List κ)) :=
  let changed := model.depManagers.foldl (fun requires manager => manager requires)
    (requires.mapValues (List.map Requirement.id))
  match cleanupEach model.parseId (fun id => id ∈ changed) changed.items with
  | .ok items => .ok (.ofList items)
  | .error e => .error e

/-- What goes to the server. -/
structure Exported (κ : Type) where
  requires : Dict κ (List κ)
  resourceState : Dict κ Bool
  sets : Sets κ

/-- `Exporter.run` up to the commit; `removed`: the resource sets that are to be removed. -/
def exportModel (model : Model ι τ κ) (removed : List String) :
    Except (ExportError κ) (Exported κ) :=
  match loadTypes model.create model.instances .empty with
  | .error e => .error (.load e)
  | .ok s =>
      match loadResourceSets s.resourceMapping model.softDelete model.resourceSets
          ⟨.empty, removed⟩ with
      | .error e => .error (.load e)
      | .ok sets =>
          match callDepManager model (convertRequires model.requires s) with
          | .error e => .error (.load e)
          | .ok requires =>
              match validateGraph requires with
              | .error e => .error (.dependencyCycle e)
              | .ok _ => .ok ⟨requires, s.resourceState, sets⟩

/-! ## What is exported is well formed -/

omit [DecidableEq κ] in
theorem cleanupAll_mem {parseId : τ → Option κ} {isResource : κ → Bool}
    {reqs : List (Requirement τ κ)} {ids : List κ}
    (h : cleanupAll parseId isResource reqs = .ok ids) : ∀ id ∈ ids, isResource id = true := by
  induction reqs generalizing ids with
  | nil =>
      obtain rfl := Except.ok.inj h
      exact fun id hid => absurd hid List.not_mem_nil
  | cons r reqs ih =>
      rw [cleanupAll] at h
      split at h
      · cases h
      rename_i id hclean
      split at h
      · rename_i hres
        split at h
        · rename_i ids' hrest
          obtain rfl := Except.ok.inj h
          intro x hx
          rcases List.mem_cons.mp hx with rfl | hx
          · exact hres
          · exact ih hrest x hx
        · cases h
      · cases h

omit [DecidableEq κ] in
theorem cleanupEach_keys {parseId : τ → Option κ} {isResource : κ → Bool}
    {items : List (κ × List (Requirement τ κ))} {items' : List (κ × List κ)}
    (h : cleanupEach parseId isResource items = .ok items') :
    items'.map Prod.fst = items.map Prod.fst ∧
      ∀ p ∈ items', ∀ id ∈ p.2, isResource id = true := by
  induction items generalizing items' with
  | nil =>
      obtain rfl := Except.ok.inj h
      exact ⟨rfl, fun p hp => absurd hp List.not_mem_nil⟩
  | cons p items ih =>
      obtain ⟨id, reqs⟩ := p
      rw [cleanupEach] at h
      split at h
      · cases h
      rename_i ids hids
      split at h
      · rename_i rest hrest
        obtain rfl := Except.ok.inj h
        obtain ⟨hkeys, hmem⟩ := ih hrest
        refine ⟨by rw [List.map_cons, List.map_cons, hkeys], fun p hp => ?_⟩
        rcases List.mem_cons.mp hp with rfl | hp
        · exact cleanupAll_mem hids
        · exact hmem p hp
      · cases h

omit [DecidableEq ι] in
/-- After the cleanup all requirements are resources that are exported. -/
theorem callDepManager_closed {model : Model ι τ κ} {requires requires' : Dict κ (List κ)}
    (h : callDepManager model requires = .ok requires') :
    ∀ id deps, requires'.get? id = some deps → ∀ d ∈ deps, d ∈ requires' := by
  unfold callDepManager at h
  simp only at h
  split at h
  · rename_i items hitems
    obtain rfl := Except.ok.inj h
    obtain ⟨hkeys, hmem⟩ := cleanupEach_keys hitems
    intro id deps hget d hd
    have hd' := hmem (id, deps) (Dict.get?_ofList hget) d hd
    rw [Dict.mem_ofList, hkeys]
    exact Dict.mem_keys.mpr (of_decide_eq_true hd')
  · cases h

/-- The sets are those of the instances, as far as these are exported. -/
structure SetsRight (mapping : Dict ι κ) (sets : List (String × List ι)) (s : Dict κ String) :
    Prop where
  listed : ∀ id name, s.get? id = some name →
    ∃ is, (name, is) ∈ sets ∧ ∃ i ∈ is, mapping.get? i = some id
  in_one : ∀ name is, (name, is) ∈ sets → ∀ i ∈ is, ∀ id, mapping.get? i = some id →
    s.get? id = some name

/-- What loading one set does to the sets of the resources and to the flag. -/
structure SetLoaded (mapping : Dict ι κ) (name : String) (is : List ι) (s s' : Dict κ String)
    (b b' : Bool) : Prop where
  keeps : ∀ id other, s.get? id = some other → s'.get? id = some other
  adds : ∀ id other, s'.get? id = some other → s.get? id = some other ∨
    (other = name ∧ ∃ i ∈ is, mapping.get? i = some id)
  all : ∀ i ∈ is, ∀ id, mapping.get? i = some id → s'.get? id = some name
  empty : b' = true → b = true ∧ ∀ i ∈ is, mapping.get? i = none

section SetLoaded

variable {mapping : Dict ι κ} {name : String} {i : ι} {is : List ι} {s s' : Dict κ String}
  {b b' : Bool}

theorem SetLoaded.skip (h : SetLoaded mapping name is s s' b b') (hi : mapping.get? i = none) :
    SetLoaded mapping name (i :: is) s s' b b' := by
  refine ⟨h.keeps, fun x other hx => ?_, fun j hj x hx => ?_, fun hb => ?_⟩
  · rcases h.adds x other hx with h | ⟨ho, j, hj, hjx⟩
    · exact .inl h
    · exact .inr ⟨ho, j, List.mem_cons_of_mem _ hj, hjx⟩
  · rcases List.mem_cons.mp hj with rfl | hj
    · cases hi.symm.trans hx
    · exact h.all j hj x hx
  · obtain ⟨hb', hno⟩ := h.empty hb
    refine ⟨hb', fun j hj => ?_⟩
    rcases List.mem_cons.mp hj with rfl | hj
    · exact hi
    · exact hno j hj

/-- The resource of the instance is put into the set. -/
theorem SetLoaded.put {id : κ} (h : SetLoaded mapping name is (s.set id name) s' false b')
    (hi : mapping.get? i = some id) (hold : s.get? id = none ∨ s.get? id = some name) :
    SetLoaded mapping name (i :: is) s s' b b' := by
  refine ⟨fun x other hx => h.keeps x other ?_, fun x other hx => ?_, fun j hj x hx => ?_,
    fun hb => ?_⟩
  · rw [Dict.get?_set]
    split
    · rename_i hxid
      subst hxid
      rcases hold with hold | hold
      · cases hold.symm.trans hx
      · exact hold.symm.trans hx
    · exact hx
  · rcases h.adds x other hx with h | ⟨rfl, j, hj, hjx⟩
    · rw [Dict.get?_set] at h
      split at h
      · rename_i hxid
        obtain rfl := Option.some.inj h
        exact .inr ⟨rfl, i, List.mem_cons_self, hxid ▸ hi⟩
      · exact .inl h
    · exact .inr ⟨rfl, j, List.mem_cons_of_mem _ hj, hjx⟩
  · rcases List.mem_cons.mp hj with rfl | hj
    · obtain rfl := Option.some.inj (hi.symm.trans hx)
      exact h.keeps id name (by rw [Dict.get?_set, if_pos rfl])
    · exact h.all j hj x hx
  · exact absurd (h.empty hb).1 Bool.false_ne_true

theorem loadSet_ok (h : loadSet mapping name is s b = .ok (s', b')) :
    SetLoaded mapping name is s s' b b' := by
  induction is generalizing s b with
  | nil =>
      rw [loadSet] at h
      cases h
      exact ⟨fun _ _ h => h, fun _ _ h => .inl h, fun i hi => absurd hi List.not_mem_nil,
        fun hb => ⟨hb, fun i hi => absurd hi List.not_mem_nil⟩⟩
  | cons i is ih =>
      rw [loadSet] at h
      split at h
      · rename_i hnone
        exact (ih h).skip hnone
      · rename_i id hid
        split at h
        · rename_i other hother
          split at h
          · cases h
          · rename_i hname
            have hown := hother.trans (congrArg some (not_not.mp hname))
            exact (ih h).put hid (.inr hown)
        · rename_i hnone
          exact (ih h).put hid (.inl hnone)

end SetLoaded

theorem loadResourceSets_ok {mapping : Dict ι κ} {softDelete : Bool}
    {sets : List (String × List ι)} {s s' : Sets κ}
    (h : loadResourceSets mapping softDelete sets s = .ok s') :
    (∀ id name, s.resourceSets.get? id = some name → s'.resourceSets.get? id = some name) ∧
    (∀ id name, s'.resourceSets.get? id = some name → s.resourceSets.get? id = some name ∨
      ∃ is, (name, is) ∈ sets ∧ ∃ i ∈ is, mapping.get? i = some id) ∧
    (∀ name is, (name, is) ∈ sets → ∀ i ∈ is, ∀ id, mapping.get? i = some id →
      s'.resourceSets.get? id = some name) := by
  induction sets generalizing s with
  | nil =>
      rw [loadResourceSets] at h
      cases h
      exact ⟨fun _ _ h => h, fun _ _ h => .inl h, fun _ _ h => absurd h List.not_mem_nil⟩
  | cons set sets ih =>
      obtain ⟨name, is⟩ := set
      -- the first set, and what follows from the others
      have hfirst : ∀ (s₁ : Sets κ) b, loadSet mapping name is s.resourceSets true =
          .ok (s₁.resourceSets, b) → loadResourceSets mapping softDelete sets s₁ = .ok s' →
          (∀ id other, s.resourceSets.get? id = some other →
            s'.resourceSets.get? id = some other) ∧
          (∀ id other, s'.resourceSets.get? id = some other →
            s.resourceSets.get? id = some other ∨
              ∃ js, (other, js) ∈ (name, is) :: sets ∧ ∃ j ∈ js, mapping.get? j = some id) ∧
          (∀ other js, (other, js) ∈ (name, is) :: sets → ∀ j ∈ js, ∀ id,
            mapping.get? j = some id → s'.resourceSets.get? id = some other) := by
        intro s₁ b hset hrest
        obtain ⟨hkeep, hfrom, hall, -⟩ := loadSet_ok hset
        obtain ⟨hkeep', hfrom', hall'⟩ := ih hrest
        refine ⟨fun id other hid => hkeep' id other (hkeep id other hid), fun id other hid => ?_,
          fun other js hjs j hj id hid => ?_⟩
        · rcases hfrom' id other hid with h₁ | ⟨js, hjs, hj⟩
          · rcases hfrom id other h₁ with h₀ | ⟨rfl, i, hi, hii⟩
            · exact .inl h₀
            · exact .inr ⟨is, List.mem_cons_self, i, hi, hii⟩
          · exact .inr ⟨js, List.mem_cons_of_mem _ hjs, hj⟩
        · rcases List.mem_cons.mp hjs with heq | hjs
          · obtain ⟨rfl, rfl⟩ := Prod.mk.inj heq
            exact hkeep' id other (hall j hj id hid)
          · exact hall' other js hjs j hj id hid
      rw [loadResourceSets] at h
      split at h
      · cases h
      · rename_i resourceSets hset
        exact hfirst ⟨resourceSets, _⟩ true hset h
      · rename_i resourceSets hset
        exact hfirst ⟨resourceSets, _⟩ false hset h

/-- The stages of an export that succeeds. -/
theorem exportModel_ok {model : Model ι τ κ} {removed : List String} {out : Exported κ}
    (h : exportModel model removed = .ok out) :
    ∃ s, loadTypes model.create model.instances .empty = .ok s ∧
      loadResourceSets s.resourceMapping model.softDelete model.resourceSets
        ⟨.empty, removed⟩ = .ok out.sets ∧
      callDepManager model (convertRequires model.requires s) = .ok out.requires ∧
      ∃ done, validateGraph out.requires = .ok done := by
  unfold exportModel at h
  split at h
  · cases h
  rename_i s hs
  split at h
  · cases h
  rename_i sets hsets
  split at h
  · cases h
  rename_i requires hrequires
  split at h
  · cases h
  rename_i done hdone
  cases h
  exact ⟨s, hs, hsets, hrequires, done, hdone⟩

/-- **What is exported is well formed.** Whatever the dependency managers do: every requirement
of an exported resource is exported with it, the dependencies have no cycle, and each resource
that is listed in a resource set is in that set and in no other. -/
theorem export_sound {model : Model ι τ κ} {removed : List String} {out : Exported κ}
    (h : exportModel model removed = .ok out) :
    (∀ id deps, out.requires.get? id = some deps → ∀ d ∈ deps, d ∈ out.requires) ∧
    (∀ x, ¬ Relation.TransGen (Edge out.requires) x x) ∧
    ∃ s, loadTypes model.create model.instances .empty = .ok s ∧
      SetsRight s.resourceMapping model.resourceSets out.sets.resourceSets := by
  obtain ⟨s, hs, hsets, hrequires, hgraph⟩ := exportModel_ok h
  obtain ⟨-, hfrom, hall⟩ := loadResourceSets_ok hsets
  refine ⟨callDepManager_closed hrequires, (validateGraph_ok_iff _).mp hgraph, s, hs, ?_, hall⟩
  intro id name hid
  exact (hfrom id name hid).resolve_left fun hempty => by cases hempty

/-- Two files, of which the first one requires the second one (`cyclic`: and the other way
round). -/
def twoFiles (cyclic : Bool) : Model Nat String String where
  instances := [("std::File", [0, 1])]
  create := fun _ i => .resource (if i = 0 then "a" else "b") false
  requires := fun i => if i = 0 then [1] else if cyclic then [0] else []
  resourceSets := [("files", [0])]
  softDelete := false
  depManagers := []
  parseId := some

theorem twoFiles_graph : ∀ x, ¬ Relation.TransGen
    (Edge (⟨[("a", ["b"]), ("b", [])], by decide⟩ : Dict String (List String))) x x := by
  have hedge : ∀ x y, Edge (⟨[("a", ["b"]), ("b", [])], by decide⟩ : Dict String (List String))
      x y → x = "a" ∧ y = "b" := by
    rintro x y ⟨targets, hget, hy⟩
    rcases List.mem_cons.mp (Dict.get?_eq_some_iff.mp hget) with heq | hmem
    · obtain ⟨rfl, rfl⟩ := Prod.mk.inj heq
      exact ⟨rfl, List.mem_singleton.mp hy⟩
    · obtain ⟨rfl, rfl⟩ := Prod.mk.inj (List.mem_singleton.mp hmem)
      cases hy
  intro x hcyc
  obtain ⟨y, hxy, -⟩ := Relation.TransGen.head'_iff.mp hcyc
  obtain ⟨z, -, hzx⟩ := Relation.TransGen.tail'_iff.mp hcyc
  have hne := (hedge x y hxy).1.symm.trans (hedge z x hzx).2
  revert hne
  decide

theorem twoFiles_exported : ∃ out, exportModel (twoFiles false) [] = .ok out := by
  obtain ⟨done, hdone⟩ := (validateGraph_ok_iff _).mpr twoFiles_graph
  have hs : loadTypes (twoFiles false).create (twoFiles false).instances .empty = .ok
      ⟨["a", "b"], ⟨[("a", false), ("b", false)], by decide⟩, ⟨[(0, "a"), (1, "b")], by decide⟩⟩ :=
    rfl
  have hsets : loadResourceSets (⟨[(0, "a"), (1, "b")], by decide⟩ : Dict Nat String)
      (twoFiles false).softDelete (twoFiles false).resourceSets ⟨.empty, []⟩ =
        .ok ⟨⟨[("a", "files")], by decide⟩, []⟩ := rfl
  have hrequires : callDepManager (twoFiles false) (convertRequires (twoFiles false).requires
      ⟨["a", "b"], ⟨[("a", false), ("b", false)], by decide⟩,
        ⟨[(0, "a"), (1, "b")], by decide⟩⟩) =
        .ok ⟨[("a", ["b"]), ("b", [])], by decide⟩ := rfl
  unfold exportModel
  simp only [hs, hsets, hrequires, hdone]
  exact ⟨_, rfl⟩

theorem export_sound_twoFiles : ∃ out, exportModel (twoFiles false) [] = .ok out ∧
    ∀ x, ¬ Relation.TransGen (Edge out.requires) x x := by
  obtain ⟨out, h⟩ := twoFiles_exported
  exact ⟨out, h, (export_sound h).2.1⟩

/-- Where the export gives up with a cycle, there is one, and the exception lists it. -/
theorem export_cycle {model : Model ι τ κ} {removed : List String}
    {e : DependencyCycleException κ} (h : exportModel model removed = .error (.dependencyCycle e)) :
    ∃ s requires, loadTypes model.create model.instances .empty = .ok s ∧
      callDepManager model (convertRequires model.requires s) = .ok requires ∧
      IsCycle requires e.cycle.reverse := by
  unfold exportModel at h
  split at h
  · cases h
  rename_i s hs
  split at h
  · cases h
  rename_i sets hsets
  split at h
  · cases h
  rename_i requires hrequires
  split at h
  · rename_i e' hcycle
    cases h
    exact ⟨s, requires, hs, hrequires, validateGraph_error hcycle⟩
  · cases h

theorem export_cycle_twoFiles : ∃ e s requires,
    exportModel (twoFiles true) [] = .error (.dependencyCycle e) ∧
      callDepManager (twoFiles true) (convertRequires (twoFiles true).requires s) = .ok requires ∧
      IsCycle requires e.cycle.reverse := by
  have hs : loadTypes (twoFiles true).create (twoFiles true).instances .empty = .ok
      ⟨["a", "b"], ⟨[("a", false), ("b", false)], by decide⟩, ⟨[(0, "a"), (1, "b")], by decide⟩⟩ :=
    rfl
  have hsets : loadResourceSets (⟨[(0, "a"), (1, "b")], by decide⟩ : Dict Nat String)
      (twoFiles true).softDelete (twoFiles true).resourceSets ⟨.empty, []⟩ =
        .ok ⟨⟨[("a", "files")], by decide⟩, []⟩ := rfl
  have hrequires : callDepManager (twoFiles true) (convertRequires (twoFiles true).requires
      ⟨["a", "b"], ⟨[("a", false), ("b", false)], by decide⟩,
        ⟨[(0, "a"), (1, "b")], by decide⟩⟩) =
        .ok ⟨[("a", ["b"]), ("b", ["a"])], by decide⟩ := rfl
  have hcyc : Relation.TransGen
      (Edge (⟨[("a", ["b"]), ("b", ["a"])], by decide⟩ : Dict String (List String))) "a" "a" :=
    .trans (.single ⟨["b"], rfl, List.mem_cons_self⟩) (.single ⟨["a"], rfl, List.mem_cons_self⟩)
  have hrun : ∃ e, exportModel (twoFiles true) [] = .error (.dependencyCycle e) := by
    unfold exportModel
    simp only [hs, hsets, hrequires]
    cases hgraph : validateGraph
        (⟨[("a", ["b"]), ("b", ["a"])], by decide⟩ : Dict String (List String)) with
    | error e => exact ⟨e, rfl⟩
    | ok done => exact absurd hcyc ((validateGraph_ok_iff _).mp ⟨done, hgraph⟩ "a")
  obtain ⟨e, he⟩ := hrun
  obtain ⟨s, requires, -, hdep, hcycle⟩ := export_cycle he
  exact ⟨e, s, requires, he, hdep, hcycle⟩

/-! ## The dependencies of the model -/

/-- Each instance has a resource of its own. -/
structure Loaded.Right (s : Loaded ι κ) : Prop where
  mapped : ∀ i id, s.resourceMapping.get? i = some id → id ∈ s.resources
  injective : ∀ i j id, s.resourceMapping.get? i = some id →
    s.resourceMapping.get? j = some id → i = j

theorem Loaded.Right.loadInstance {s s' : Loaded ι κ} (hs : s.Right) {created : Created κ}
    {i : ι} (h : loadInstance created s i = .ok s') : s'.Right := by
  unfold Exporter.loadInstance at h
  split at h
  · rename_i id isUndefined
    split at h
    · cases h
    rename_i hnew
    cases h
    have hget : ∀ j x, (s.resourceMapping.set i id).get? j = some x →
        (j = i ∧ x = id) ∨ (j ≠ i ∧ s.resourceMapping.get? j = some x) := by
      intro j x hx
      rw [Dict.get?_set] at hx
      split at hx
      · rename_i hji
        exact .inl ⟨hji, (Option.some.inj hx).symm⟩
      · rename_i hji
        exact .inr ⟨hji, hx⟩
    refine ⟨fun j x hx => List.mem_append.mpr ?_, fun j k x hj hk => ?_⟩
    · rcases hget j x hx with ⟨-, rfl⟩ | ⟨-, hx⟩
      · exact .inr (List.mem_singleton_self x)
      · exact .inl (hs.mapped j x hx)
    · rcases hget j x hj with ⟨hji, hxid⟩ | ⟨-, hj'⟩
      · rcases hget k x hk with ⟨hki, -⟩ | ⟨-, hk'⟩
        · rw [hji, hki]
        · exact absurd (hxid ▸ hs.mapped k x hk') hnew
      · rcases hget k x hk with ⟨-, hxid⟩ | ⟨-, hk'⟩
        · exact absurd (hxid ▸ hs.mapped j x hj') hnew
        · exact hs.injective j k x hj' hk'
  · cases h
    exact hs
  · cases h
    exact hs
  · cases h

theorem Loaded.Right.loadInstances {create : ι → Created κ} {is : List ι} {s s' : Loaded ι κ}
    (hs : s.Right) (h : loadInstances create is s = .ok s') : s'.Right := by
  induction is generalizing s with
  | nil =>
      cases h
      exact hs
  | cons i is ih =>
      rw [Exporter.loadInstances] at h
      split at h
      · rename_i s₁ hs₁
        exact ih (hs.loadInstance hs₁) h
      · cases h

theorem Loaded.Right.loadTypes {create : String → ι → Created κ} {types : List (String × List ι)}
    {s s' : Loaded ι κ} (hs : s.Right) (h : loadTypes create types s = .ok s') : s'.Right := by
  induction types generalizing s with
  | nil =>
      cases h
      exact hs
  | cons type types ih =>
      rw [Exporter.loadTypes] at h
      split at h
      · rename_i s₁ hs₁
        exact ih (hs.loadInstances hs₁) h
      · cases h

theorem convertRequires_eq (modelRequires : ι → List ι) (s : Loaded ι κ) :
    convertRequires modelRequires s =
      (s.resourceMapping.items.map fun p =>
        (p.2, (modelRequires p.1).filterMap s.resourceMapping.get?)).foldl
          (fun requires p => requires.set p.1 p.2)
          (Dict.ofList (s.resources.map fun id => (id, []))) := by
  rw [convertRequires, List.foldl_map]

theorem mem_convertRequires {modelRequires : ι → List ι} {s : Loaded ι κ} (hs : s.Right)
    {id : κ} : id ∈ convertRequires modelRequires s ↔ id ∈ s.resources := by
  rw [convertRequires_eq, Dict.mem_foldl_set, Dict.mem_ofList]
  simp only [List.map_map, List.mem_map, Function.comp_apply, exists_eq_right]
  constructor
  · rintro (⟨p, hp, rfl⟩ | h)
    · exact hs.mapped p.1 p.2 (Dict.get?_eq_some_iff.mpr hp)
    · exact h
  · exact .inr

/-- The requirements of a resource are the resources of what its instance requires. -/
theorem edge_convertRequires {modelRequires : ι → List ι} {s : Loaded ι κ} (hs : s.Right)
    {id d : κ} : Edge (convertRequires modelRequires s) id d ↔
      ∃ i j, s.resourceMapping.get? i = some id ∧ s.resourceMapping.get? j = some d ∧
        j ∈ modelRequires i := by
  have hfrom : ∀ deps, (convertRequires modelRequires s).get? id = some deps →
      (∃ i, s.resourceMapping.get? i = some id ∧
        deps = (modelRequires i).filterMap s.resourceMapping.get?) ∨
      (deps = [] ∧ ∀ i, s.resourceMapping.get? i ≠ some id) := by
    intro deps hdeps
    rw [convertRequires_eq] at hdeps
    rcases Dict.get?_foldl_set hdeps with hmem | ⟨hold, hno⟩
    · obtain ⟨p, hp, heq⟩ := List.mem_map.mp hmem
      obtain ⟨rfl, rfl⟩ := Prod.mk.inj heq
      exact .inl ⟨p.1, Dict.get?_eq_some_iff.mpr hp, rfl⟩
    · refine .inr ⟨?_, fun i hi => hno ?_⟩
      · obtain ⟨x, -, heq⟩ := List.mem_map.mp (Dict.get?_ofList hold)
        exact (Prod.mk.inj heq).2.symm
      · exact List.mem_map.mpr ⟨_, List.mem_map.mpr ⟨(i, id), Dict.get?_eq_some_iff.mp hi, rfl⟩,
          rfl⟩
  constructor
  · rintro ⟨deps, hdeps, hd⟩
    rcases hfrom deps hdeps with ⟨i, hi, rfl⟩ | ⟨rfl, -⟩
    · obtain ⟨j, hj, hjd⟩ := List.mem_filterMap.mp hd
      exact ⟨i, j, hi, hjd, hj⟩
    · cases hd
  · rintro ⟨i, j, hi, hj, hreq⟩
    have hid : id ∈ convertRequires modelRequires s :=
      (mem_convertRequires hs).mpr (hs.mapped i id hi)
    obtain ⟨deps, hdeps⟩ := Dict.mem_iff.mp hid
    refine ⟨deps, hdeps, ?_⟩
    rcases hfrom deps hdeps with ⟨i', hi', rfl⟩ | ⟨-, hno⟩
    · obtain rfl := hs.injective i' i id hi' hi
      exact List.mem_filterMap.mpr ⟨j, hreq, hj⟩
    · exact absurd hi (hno i)

omit [DecidableEq κ] in
theorem cleanupAll_map_id {parseId : τ → Option κ} {isResource : κ → Bool} {ids : List κ}
    (h : ∀ id ∈ ids, isResource id = true) :
    cleanupAll parseId isResource (ids.map Requirement.id) = .ok ids := by
  induction ids with
  | nil => rfl
  | cons id ids ih =>
      rw [List.map_cons, cleanupAll]
      simp only [cleanup, h id List.mem_cons_self, if_true,
        ih fun x hx => h x (List.mem_cons_of_mem _ hx)]

omit [DecidableEq κ] in
theorem cleanupEach_map_id {parseId : τ → Option κ} {isResource : κ → Bool}
    {items : List (κ × List κ)} (h : ∀ p ∈ items, ∀ id ∈ p.2, isResource id = true) :
    cleanupEach parseId isResource (items.map fun p => (p.1, p.2.map Requirement.id)) =
      .ok items := by
  induction items with
  | nil => rfl
  | cons p items ih =>
      obtain ⟨id, deps⟩ := p
      rw [List.map_cons, cleanupEach]
      simp only [cleanupAll_map_id (h (id, deps) List.mem_cons_self),
        ih fun q hq => h q (List.mem_cons_of_mem _ hq)]

omit [DecidableEq ι] in
/-- Without dependency managers a closed relation stays as it is. -/
theorem callDepManager_nil {model : Model ι τ κ} (hnone : model.depManagers = [])
    {requires : Dict κ (List κ)} (hclosed : ∀ id d, Edge requires id d → d ∈ requires) :
    ∃ requires', callDepManager model requires = .ok requires' ∧
      ∀ id, requires'.get? id = requires.get? id := by
  have hitems : (requires.mapValues (List.map (@Requirement.id τ κ))).items =
      requires.items.map fun p => (p.1, p.2.map Requirement.id) := rfl
  have hmem : ∀ id, id ∈ requires.mapValues (List.map (@Requirement.id τ κ)) ↔ id ∈ requires := by
    intro id
    rw [← Dict.mem_keys, ← Dict.mem_keys, Dict.keys, Dict.keys, hitems, List.map_map]
    rfl
  have hclean : cleanupEach model.parseId
      (fun id => id ∈ requires.mapValues (List.map (@Requirement.id τ κ)))
      (requires.mapValues (List.map (@Requirement.id τ κ))).items = .ok requires.items := by
    rw [hitems]
    refine cleanupEach_map_id fun p hp id hid => decide_eq_true ((hmem id).mpr ?_)
    exact hclosed p.1 id ⟨p.2, Dict.get?_eq_some_iff.mpr hp, hid⟩
  refine ⟨.ofList requires.items, ?_, fun id => ?_⟩
  · have hchanged : model.depManagers.foldl (fun requires manager => manager requires)
        (requires.mapValues (List.map (@Requirement.id τ κ))) =
          requires.mapValues (List.map Requirement.id) := by
      rw [hnone]
      rfl
    unfold callDepManager
    simp only [hchanged, hclean]
  · cases hget : requires.get? id with
    | none =>
        refine Dict.not_mem_iff.mp fun h => ?_
        rw [Dict.mem_ofList] at h
        exact Dict.not_mem_iff.mpr hget (Dict.mem_keys.mp h)
    | some deps =>
        have hid : id ∈ Dict.ofList requires.items :=
          Dict.mem_ofList.mpr (Dict.mem_keys.mpr (Dict.mem_of_get? hget))
        obtain ⟨deps', hdeps'⟩ := Dict.mem_iff.mp hid
        rw [hdeps', ← hget]
        exact (Dict.get?_eq_some_iff.mpr (Dict.get?_ofList hdeps')).symm

/-- What the model says of the resources: the instance of the one requires that of the other. -/
def Requires (model : Model ι τ κ) (mapping : Dict ι κ) (id d : κ) : Prop :=
  ∃ i j, mapping.get? i = some id ∧ mapping.get? j = some d ∧ j ∈ model.requires i

end

end Exporter

end Inmanta
