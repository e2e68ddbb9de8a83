import Inmanta.Lib.Run
import Inmanta.Util.StableDepthFirst

/-!
# The life cycle of the server slices

A server starts its slices in the order of their dependencies and stops them in
the reverse order. Each slice is first prestarted and then started, first
prestopped and then stopped, and each of these calls may fail.

`up` reads off a log of these calls which slices are up: they were started and
have not been stopped since. A slice that is up has its dependencies up at any
time, also where a start fails halfway or a stop fails (`dependencies_up`).
-/

namespace Inmanta

open StableDepthFirst (stableDepthFirst stableDepthFirst_ok Edge IsStableSort)

/-- What the server looks at of a slice. -/
structure ServerSlice where
  name : String
  /-- The slices that are to be started before this one. -/
  dependencies : List String
  /-- The slices that are to be started after this one. -/
  dependedBy : List String

inductive SlicePhase where
  | prestart
  | start
  | prestop
  | stop
  deriving DecidableEq

/-- A call of a method of a slice, and whether it succeeded. -/
structure SliceCall where
  phase : SlicePhase
  name : String
  ok : Bool
  deriving DecidableEq

inductive ServerError where
  /-- `ServerStartFailure`: the dependencies have a cycle. -/
  | cycle (nodes : List String)
  | sliceStartup (name : String)
  /-- The stop of the endpoint itself failed. -/
  | endpoint
  /-- The slices whose prestop and whose stop failed. -/
  | shutdown (prestop stop : List String)

structure Server where
  slices : Dict String ServerSlice
  sliceSequence : Option (List ServerSlice)
  running : Bool
  log : List SliceCall

namespace Server

def init : Server := ⟨.empty, none, false, []⟩

def addSlice (s : Server) (slice : ServerSlice) : Server :=
  { s with slices := s.slices.set slice.name slice, sliceSequence := none }

/-! ## The order of the slices -/

/-- Add to the set a key has in a `defaultdict(set)`. -/
def addEdges (edges : Dict String (List String)) (name : String) (targets : List String) :
    Dict String (List String) :=
  edges.set name (edges.getD name [] ∪ targets)

def addSliceEdges (edges : Dict String (List String)) (slice : ServerSlice) :
    Dict String (List String) :=
  slice.dependedBy.foldl (fun edges depby => addEdges edges depby [slice.name])
    (addEdges edges slice.name slice.dependencies)

def sliceEdges (slices : List ServerSlice) : Dict String (List String) :=
  slices.foldl addSliceEdges .empty

def orderSlices (slices : Dict String ServerSlice) : Except ServerError (List ServerSlice) :=
  let edges := sliceEdges slices.values
  match stableDepthFirst edges.keys edges with
  | .error e => .error (.cycle e.nodes)
  | .ok order => .ok (order.filterMap slices.get?)

def getSliceSequence (s : Server) : Except ServerError (List ServerSlice) :=
  match s.sliceSequence with
  | some order => .ok order
  | none => orderSlices s.slices

/-! ## Start and stop -/

/-- Call the method of one slice after the other, up to the first that fails. -/
def callUntilFailure (phase : SlicePhase) (fails : SlicePhase → String → Bool) :
    List ServerSlice → List SliceCall × Option String
  | [] => ([], none)
  | slice :: order =>
      if fails phase slice.name then ([⟨phase, slice.name, false⟩], some slice.name)
      else
        let (calls, failed) := callUntilFailure phase fails order
        (⟨phase, slice.name, true⟩ :: calls, failed)

/-- Call the method of every slice. -/
def callAll (phase : SlicePhase) (fails : SlicePhase → String → Bool)
    (order : List ServerSlice) : List SliceCall :=
  order.map fun slice => ⟨phase, slice.name, !fails phase slice.name⟩

def failures (calls : List SliceCall) : List String :=
  (calls.filter fun call => !call.ok).map SliceCall.name

def start (s : Server) (fails : SlicePhase → String → Bool) : Server × Option ServerError :=
  if s.running then (s, none)
  else
    let s := { s with running := true }
    match s.getSliceSequence with
    | .error e => (s, some e)
    | .ok order =>
        let s := { s with sliceSequence := some order }
        match callUntilFailure .prestart fails order with
        | (calls, some name) => ({ s with log := s.log ++ calls }, some (.sliceStartup name))
        | (calls, none) =>
            let (calls', failed) := callUntilFailure .start fails order
            ({ s with log := s.log ++ (calls ++ calls') }, failed.map .sliceStartup)

/-- `endpointFails`: the background tasks of the server itself cannot be stopped. -/
def stop (s : Server) (fails : SlicePhase → String → Bool) (endpointFails : Bool) :
    Server × Option ServerError :=
  if !s.running then (s, none)
  else
    let s := { s with running := false }
    if endpointFails then (s, some .endpoint)
    else
      match s.getSliceSequence with
      | .error e => (s, some e)
      | .ok order =>
          let prestops := callAll .prestop fails order.reverse
          let stops := callAll .stop fails order.reverse
          ({ s with sliceSequence := some order, log := s.log ++ (prestops ++ stops) },
            if failures prestops = [] ∧ failures stops = [] then none
            else some (.shutdown (failures prestops) (failures stops)))

/-! ## Which slices are up -/

def upStep (up : List String) (call : SliceCall) : List String :=
  match call.phase with
  | .start => if call.ok then up.insert call.name else up
  | .stop => discard up call.name
  | _ => up

/-- The slices that were started and not stopped since. -/
def up (log : List SliceCall) : List String := log.foldl upStep []

/-- A slice is to be started after another one, which exists. -/
def DependsOn (slices : Dict String ServerSlice) (n m : String) : Prop :=
  ∃ a b, slices.get? n = some a ∧ slices.get? m = some b ∧
    (m ∈ a.dependencies ∨ n ∈ b.dependedBy)

/-- What is up has its dependencies up. -/
def Closed (slices : Dict String ServerSlice) (up : List String) : Prop :=
  ∀ n ∈ up, ∀ m, DependsOn slices n m → m ∈ up

/-- Every slice once, and after the slices it depends on. -/
structure SliceOrder (slices : Dict String ServerSlice) (order : List ServerSlice) : Prop where
  nodup : (order.map ServerSlice.name).Nodup
  complete : ∀ n, n ∈ order.map ServerSlice.name ↔ n ∈ slices
  after : ∀ pre slice post, order = pre ++ slice :: post →
    ∀ m, DependsOn slices slice.name m → m ∈ pre.map ServerSlice.name

/-- Slices are stored under their name. -/
def Named (slices : Dict String ServerSlice) : Prop :=
  ∀ n slice, slices.get? n = some slice → slice.name = n

theorem edge_addEdges {edges : Dict String (List String)} {name x y : String}
    {targets : List String} :
    Edge (addEdges edges name targets) x y ↔ Edge edges x y ∨ (x = name ∧ y ∈ targets) := by
  unfold Edge addEdges
  simp only [Dict.get?_set]
  by_cases hx : x = name
  · subst hx
    simp only [if_pos, Option.some.injEq, exists_eq_left', List.mem_union_iff, true_and]
    refine or_congr ?_ Iff.rfl
    cases hg : edges.get? x with
    | none => simp [Dict.getD, hg]
    | some l => simp [Dict.getD, hg]
  · simp [hx]

theorem edge_addSliceEdges {edges : Dict String (List String)} {slice : ServerSlice}
    {x y : String} : Edge (addSliceEdges edges slice) x y ↔
      Edge edges x y ∨ (x = slice.name ∧ y ∈ slice.dependencies) ∨
        (x ∈ slice.dependedBy ∧ y = slice.name) := by
  have hfold : ∀ (names : List String) (edges : Dict String (List String)),
      Edge (names.foldl (fun edges depby => addEdges edges depby [slice.name]) edges) x y ↔
        Edge edges x y ∨ (x ∈ names ∧ y = slice.name) := by
    intro names
    induction names with
    | nil => simp
    | cons name names ih =>
        intro edges
        rw [List.foldl_cons, ih, edge_addEdges, List.mem_singleton, List.mem_cons, or_and_right,
          or_assoc]
  rw [addSliceEdges, hfold, edge_addEdges, or_assoc]

theorem edge_sliceEdges {slices : List ServerSlice} {x y : String} :
    Edge (sliceEdges slices) x y ↔ ∃ slice ∈ slices,
      (x = slice.name ∧ y ∈ slice.dependencies) ∨ (x ∈ slice.dependedBy ∧ y = slice.name) := by
  have hfold : ∀ (slices : List ServerSlice) (edges : Dict String (List String)),
      Edge (slices.foldl addSliceEdges edges) x y ↔ Edge edges x y ∨ ∃ slice ∈ slices,
        (x = slice.name ∧ y ∈ slice.dependencies) ∨
          (x ∈ slice.dependedBy ∧ y = slice.name) := by
    intro slices
    induction slices with
    | nil => simp
    | cons slice slices ih =>
        intro edges
        rw [List.foldl_cons, ih, edge_addSliceEdges, List.exists_mem_cons_iff, or_assoc]
  rw [sliceEdges, hfold]
  refine or_iff_right ?_
  rintro ⟨targets, h, -⟩
  cases h

theorem mem_sliceEdges {slices : List ServerSlice} {slice : ServerSlice} (h : slice ∈ slices) :
    slice.name ∈ sliceEdges slices := by
  have hmono : ∀ (names : List String) (edges : Dict String (List String)) (k t : String),
      k ∈ edges → k ∈ names.foldl (fun edges depby => addEdges edges depby [t]) edges := by
    intro names
    induction names with
    | nil => exact fun _ _ _ hk => hk
    | cons name names ih => exact fun edges k t hk => ih _ k t (Dict.mem_set.mpr (.inr hk))
  have hfold : ∀ (slices : List ServerSlice) (edges : Dict String (List String)) (k : String),
      (k ∈ edges ∨ ∃ slice ∈ slices, slice.name = k) → k ∈ slices.foldl addSliceEdges edges := by
    intro slices
    induction slices with
    | nil =>
        rintro edges k (hk | ⟨_, hk, -⟩)
        · exact hk
        · cases hk
    | cons slice slices ih =>
        rintro edges k (hk | ⟨slice', hk, rfl⟩)
        · exact ih _ k (.inl (hmono _ _ k _ (Dict.mem_set.mpr (.inr hk))))
        · rcases List.mem_cons.mp hk with rfl | hk
          · exact ih _ _ (.inl (hmono _ _ _ _ (Dict.mem_set.mpr (.inl rfl))))
          · exact ih _ _ (.inr ⟨slice', hk, rfl⟩)
  exact hfold slices .empty slice.name (.inr ⟨slice, h, rfl⟩)

theorem DependsOn.edge {slices : Dict String ServerSlice} (hnamed : Named slices) {n m : String}
    (h : DependsOn slices n m) : Edge (sliceEdges slices.values) n m := by
  obtain ⟨a, b, ha, hb, hdep⟩ := h
  refine edge_sliceEdges.mpr ?_
  rcases hdep with hdep | hdep
  · exact ⟨a, Dict.mem_values.mpr ⟨n, ha⟩, .inl ⟨(hnamed n a ha).symm, hdep⟩⟩
  · exact ⟨b, Dict.mem_values.mpr ⟨m, hb⟩, .inr ⟨hdep, (hnamed m b hb).symm⟩⟩

theorem map_name_filterMap {slices : Dict String ServerSlice} (hnamed : Named slices)
    (order : List String) :
    (order.filterMap slices.get?).map ServerSlice.name =
      order.filter fun n => (slices.get? n).isSome := by
  induction order with
  | nil => rfl
  | cons n order ih =>
      cases hn : slices.get? n with
      | none => simp [hn, ih]
      | some slice => simp [hn, ih, hnamed n slice hn]

theorem orderSlices_ok {slices : Dict String ServerSlice} (hnamed : Named slices)
    {order : List ServerSlice} (h : orderSlices slices = .ok order) : SliceOrder slices order := by
  unfold orderSlices at h
  cases hsort : stableDepthFirst (sliceEdges slices.values).keys (sliceEdges slices.values) with
  | error e =>
      simp only [hsort] at h
      cases h
  | ok names =>
      simp only [hsort] at h
      cases h
      have hstable := stableDepthFirst_ok hsort
      refine ⟨?_, fun n => ?_, fun pre slice post hsplit m hdep => ?_⟩
      · rw [map_name_filterMap hnamed]
        exact hstable.ordered.nodup.filter _
      · rw [map_name_filterMap hnamed, List.mem_filter]
        refine ⟨fun hn => hn.2, fun hn => ⟨?_, hn⟩⟩
        obtain ⟨slice, hslice⟩ := Dict.mem_iff.mp hn
        refine (hstable.complete n).mpr ⟨n, Dict.mem_keys.mpr ?_, .refl⟩
        rw [← hnamed n slice hslice]
        exact mem_sliceEdges (Dict.mem_values.mpr ⟨n, hslice⟩)
      · obtain ⟨l₁, l₂, rfl, hpre, hrest⟩ := List.filterMap_eq_append_iff.mp hsplit
        obtain ⟨l₃, n, l₄, rfl, hnone, hn, -⟩ := List.filterMap_eq_cons_iff.mp hrest
        rw [hnamed n slice hn] at hdep
        have hmem := hstable.ordered.after (l₁ ++ l₃) n l₄ (by simp) m (hdep.edge hnamed)
        obtain ⟨a, b, -, hb, -⟩ := hdep
        have hm : m ∈ l₁ := by
          refine (List.mem_append.mp hmem).resolve_right fun h₃ => ?_
          cases (hnone m h₃).symm.trans hb
        rw [← hpre, map_name_filterMap hnamed, List.mem_filter]
        exact ⟨hm, by rw [hb]; rfl⟩

/-! ## Calls one after the other -/

/-- What holds at every call: what is up has its dependencies up, and so has a slice
that is started. -/
def CallsInOrder (slices : Dict String ServerSlice) (up : List String) :
    List SliceCall → Prop
  | [] => Closed slices up
  | call :: calls =>
      Closed slices up ∧
        (call.phase = .start → ∀ m, DependsOn slices call.name m → m ∈ up) ∧
        CallsInOrder slices (upStep up call) calls

theorem CallsInOrder.append {slices : Dict String ServerSlice} {up : List String}
    {calls calls' : List SliceCall} (h : CallsInOrder slices up calls)
    (h' : CallsInOrder slices (calls.foldl upStep up) calls') :
    CallsInOrder slices up (calls ++ calls') := by
  induction calls generalizing up with
  | nil => exact h'
  | cons call calls ih => exact ⟨h.1, h.2.1, ih h.2.2 h'⟩

theorem CallsInOrder.closed {slices : Dict String ServerSlice} {up : List String}
    {calls : List SliceCall} (h : CallsInOrder slices up calls) :
    Closed slices (calls.foldl upStep up) := by
  induction calls generalizing up with
  | nil => exact h
  | cons call calls ih => exact ih h.2.2

theorem CallsInOrder.at {slices : Dict String ServerSlice} {up : List String}
    {calls : List SliceCall} (h : CallsInOrder slices up calls) {pre post : List SliceCall}
    {call : SliceCall} (hsplit : calls = pre ++ call :: post) :
    Closed slices (pre.foldl upStep up) ∧ (call.phase = .start →
      ∀ m, DependsOn slices call.name m → m ∈ pre.foldl upStep up) := by
  subst hsplit
  induction pre generalizing up with
  | nil => exact ⟨h.1, h.2.1⟩
  | cons c pre ih => exact ih h.2.2

/-- Calls that start and stop nothing. -/
theorem CallsInOrder.of_pre {slices : Dict String ServerSlice} {up : List String}
    {calls : List SliceCall} (h : Closed slices up)
    (hpre : ∀ call ∈ calls, call.phase = .prestart ∨ call.phase = .prestop) :
    CallsInOrder slices up calls ∧ calls.foldl upStep up = up := by
  induction calls with
  | nil => exact ⟨h, rfl⟩
  | cons call calls ih =>
      obtain ⟨hrest, hfold⟩ := ih fun c hc => hpre c (List.mem_cons_of_mem _ hc)
      have hcall := hpre call List.mem_cons_self
      have hstep : upStep up call = up := by
        unfold upStep
        rcases hcall with hcall | hcall <;> rw [hcall]
      refine ⟨⟨h, fun hstart => ?_, ?_⟩, ?_⟩
      · rcases hcall with hcall | hcall <;> rw [hcall] at hstart <;> cases hstart
      · rw [hstep]
        exact hrest
      · rw [List.foldl_cons, hstep]
        exact hfold

theorem phase_of_mem_callUntilFailure {phase : SlicePhase} {fails : SlicePhase → String → Bool}
    {order : List ServerSlice} {call : SliceCall}
    (h : call ∈ (callUntilFailure phase fails order).1) : call.phase = phase := by
  induction order with
  | nil => cases h
  | cons slice order ih =>
      unfold callUntilFailure at h
      split at h
      · rw [List.mem_singleton] at h
        rw [h]
      · rcases List.mem_cons.mp h with rfl | h
        · rfl
        · exact ih h

/-- Starting the slices of an order of which the first ones are up. -/
theorem callsInOrder_start {slices : Dict String ServerSlice}
    {fails : SlicePhase → String → Bool} {order : List ServerSlice}
    (horder : SliceOrder slices order) (rest done : List ServerSlice) {up : List String}
    (hsplit : order = done ++ rest) (hdone : ∀ n ∈ done.map ServerSlice.name, n ∈ up)
    (hup : Closed slices up) :
    CallsInOrder slices up (callUntilFailure .start fails rest).1 := by
  induction rest generalizing done up with
  | nil => exact hup
  | cons slice rest ih =>
      have hdeps : ∀ m, DependsOn slices slice.name m → m ∈ up :=
        fun m hm => hdone m (horder.after done slice rest hsplit m hm)
      unfold callUntilFailure
      split
      · exact ⟨hup, fun _ => hdeps, hup⟩
      · refine ⟨hup, fun _ => hdeps, ih (done ++ [slice]) (by simp [hsplit]) ?_ ?_⟩
        · intro n hn
          change n ∈ up.insert slice.name
          rw [List.map_append, List.mem_append] at hn
          rcases hn with hn | hn
          · exact List.mem_insert_iff.mpr (.inr (hdone n hn))
          · exact List.mem_insert_iff.mpr (.inl (List.mem_singleton.mp hn))
        · intro n hn m hm
          refine List.mem_insert_iff.mpr (.inr ?_)
          rcases List.mem_insert_iff.mp hn with rfl | hn
          · exact hdeps m hm
          · exact hup n hn m hm

/-- Stopping the slices of an order of which the last ones are down. -/
theorem callsInOrder_stop {slices : Dict String ServerSlice}
    {fails : SlicePhase → String → Bool} {order : List ServerSlice}
    (horder : SliceOrder slices order) (rest down : List ServerSlice) {up : List String}
    (hsplit : order = rest.reverse ++ down) (hmem : ∀ n ∈ up, n ∈ slices)
    (hdown : ∀ n ∈ down.map ServerSlice.name, n ∉ up) (hup : Closed slices up) :
    CallsInOrder slices up (callAll .stop fails rest) ∧
      (callAll .stop fails rest).foldl upStep up = [] := by
  induction rest generalizing down up with
  | nil =>
      refine ⟨hup, List.eq_nil_iff_forall_not_mem.mpr fun n hn => hdown n ?_ hn⟩
      rw [← show order = down from hsplit]
      exact (horder.complete n).mpr (hmem n hn)
  | cons slice rest ih =>
      rw [List.reverse_cons, List.append_assoc, List.singleton_append] at hsplit
      have hclosed : Closed slices (discard up slice.name) := by
        intro n hn m hm
        obtain ⟨hnup, hne⟩ := mem_discard.mp hn
        refine mem_discard.mpr ⟨hup n hnup m hm, ?_⟩
        rintro rfl
        -- the slice that depends on this one comes after it in the order, so it is down
        have hn' := (horder.complete n).mpr (hmem n hnup)
        rw [hsplit, List.map_append, List.mem_append, List.map_cons, List.mem_cons] at hn'
        rcases hn' with hn' | rfl | hn'
        · obtain ⟨other, hother, rfl⟩ := List.mem_map.mp hn'
          obtain ⟨pre, post, hpre⟩ := List.append_of_mem hother
          have hbefore := horder.after pre other (post ++ slice :: down)
            (by rw [hsplit, hpre]; simp) slice.name hm
          have hnodup := horder.nodup
          rw [hsplit, hpre, List.map_append, List.map_append] at hnodup
          refine List.disjoint_of_nodup_append hnodup ?_ List.mem_cons_self
          exact List.mem_append.mpr (.inl hbefore)
        · exact hne rfl
        · exact hdown n hn' hnup
      have hrest := ih (slice :: down) hsplit (fun n hn => hmem n (mem_discard.mp hn).1)
        (fun n hn => ?_) hclosed
      · exact ⟨⟨hup, (fun h => by cases h), hrest.1⟩, hrest.2⟩
      · rw [List.map_cons, List.mem_cons] at hn
        rcases hn with rfl | hn
        · exact fun h => (mem_discard.mp h).2 rfl
        · exact fun h => hdown n hn (mem_discard.mp h).1

/-! ## Runs -/

inductive Step where
  | addSlice (slice : ServerSlice)
  | start (fails : SlicePhase → String → Bool)
  | stop (fails : SlicePhase → String → Bool) (endpointFails : Bool)

def step (s : Server) : Step → Option Server
  | .addSlice slice => some (s.addSlice slice)
  | .start fails => some (s.start fails).1
  | .stop fails endpointFails => some (s.stop fails endpointFails).1

/-- Slices are added to a server of which no slice is up. -/
def AddedDown (s : Server) : Step → Prop
  | .addSlice _ => up s.log = []
  | _ => True

structure Inv (s : Server) : Prop where
  named : Named s.slices
  up_known : ∀ n ∈ up s.log, n ∈ s.slices
  closed : Closed s.slices (up s.log)
  sequence : ∀ order, s.sliceSequence = some order → SliceOrder s.slices order

theorem inv_init : init.Inv where
  named := fun _ _ h => absurd (Dict.mem_of_get? h) (Dict.not_mem_empty _)
  up_known := fun _ h => absurd h List.not_mem_nil
  closed := fun _ h => absurd h List.not_mem_nil
  sequence := fun _ h => by cases h

theorem Inv.getSliceSequence_ok {s : Server} (hs : s.Inv) {order : List ServerSlice}
    (h : s.getSliceSequence = .ok order) : SliceOrder s.slices order := by
  unfold Server.getSliceSequence at h
  split at h
  · rename_i order' hseq
    cases h
    exact hs.sequence _ hseq
  · exact orderSlices_ok hs.named h

theorem Inv.addSlice {s : Server} (hs : s.Inv) {slice : ServerSlice} (hdown : up s.log = []) :
    (s.addSlice slice).Inv where
  named := fun n slice' h => by
    change (s.slices.set slice.name slice).get? n = some slice' at h
    rw [Dict.get?_set] at h
    split at h
    · rename_i hn
      cases h
      exact hn.symm
    · exact hs.named n slice' h
  up_known := fun n hn => by
    change n ∈ up s.log at hn
    rw [hdown] at hn
    cases hn
  closed := fun n hn => by
    change n ∈ up s.log at hn
    rw [hdown] at hn
    cases hn
  sequence := fun _ h => by cases h

/-- A slice that is up after some calls was up before, or is one that was called. -/
theorem mem_foldl_upStep {calls : List SliceCall} {up : List String} {n : String}
    (h : n ∈ calls.foldl upStep up) : n ∈ up ∨ n ∈ calls.map SliceCall.name := by
  induction calls generalizing up with
  | nil => exact .inl h
  | cons call calls ih =>
      rw [List.map_cons, List.mem_cons]
      rcases ih h with h | h
      · unfold upStep at h
        split at h
        · split at h
          · rcases List.mem_insert_iff.mp h with h | h
            · exact .inr (.inl h)
            · exact .inl h
          · exact .inl h
        · exact .inl (mem_discard.mp h).1
        · exact .inl h
      · exact .inr (.inr h)

theorem mem_callUntilFailure {phase : SlicePhase} {fails : SlicePhase → String → Bool}
    {order : List ServerSlice} {call : SliceCall}
    (h : call ∈ (callUntilFailure phase fails order).1) :
    call.name ∈ order.map ServerSlice.name := by
  induction order with
  | nil => cases h
  | cons slice order ih =>
      rw [List.map_cons, List.mem_cons]
      unfold callUntilFailure at h
      split at h
      · rw [List.mem_singleton] at h
        exact .inl (by rw [h])
      · rcases List.mem_cons.mp h with rfl | h
        · exact .inl rfl
        · exact .inr (ih h)

/-- The calls a server makes are in order, and are calls of its slices. -/
structure Makes (s s' : Server) (calls : List SliceCall) : Prop where
  log : s'.log = s.log ++ calls
  slices : s'.slices = s.slices
  in_order : CallsInOrder s.slices (up s.log) calls
  known : ∀ call ∈ calls, call.name ∈ s.slices

theorem Makes.inv {s s' : Server} {calls : List SliceCall} (h : s.Makes s' calls) (hs : s.Inv)
    (hsequence : ∀ order, s'.sliceSequence = some order → SliceOrder s.slices order) :
    s'.Inv := by
  have hup : up s'.log = calls.foldl upStep (up s.log) := by
    rw [h.log, up, List.foldl_append]
    rfl
  refine ⟨?_, ?_, ?_, ?_⟩
  · rw [h.slices]
    exact hs.named
  · intro n hn
    rw [hup] at hn
    rw [h.slices]
    rcases mem_foldl_upStep hn with hn | hn
    · exact hs.up_known n hn
    · obtain ⟨call, hcall, rfl⟩ := List.mem_map.mp hn
      exact h.known call hcall
  · rw [hup, h.slices]
    exact h.in_order.closed
  · rw [h.slices]
    exact hsequence

/-- What a start does, whatever fails. -/
theorem Inv.start {s : Server} (hs : s.Inv) (fails : SlicePhase → String → Bool) :
    (s.start fails).1.Inv ∧ ∃ calls, s.Makes (s.start fails).1 calls := by
  unfold Server.start
  split
  · exact ⟨hs, [], by simp, rfl, hs.closed, fun _ h => by cases h⟩
  simp only
  split
  · exact ⟨{ hs with }, [], by simp, rfl, hs.closed, fun _ h => by cases h⟩
  rename_i order horder
  have hsort : SliceOrder s.slices order := hs.getSliceSequence_ok horder
  have hsequence : ∀ order', some order = some order' → SliceOrder s.slices order' := by
    rintro order' ⟨⟩
    exact hsort
  have hpre : CallsInOrder s.slices (up s.log) (callUntilFailure .prestart fails order).1 ∧ _ :=
    CallsInOrder.of_pre hs.closed fun call hcall => .inl (phase_of_mem_callUntilFailure hcall)
  have hknown : ∀ phase, ∀ call ∈ (callUntilFailure phase fails order).1,
      call.name ∈ s.slices := fun _ call hcall =>
    (hsort.complete _).mp (mem_callUntilFailure hcall)
  split
  · rename_i calls name hcalls
    rw [hcalls] at hpre
    have hmakes : s.Makes
        { s with running := true, sliceSequence := some order, log := s.log ++ calls } calls := by
      refine ⟨rfl, rfl, hpre.1, fun call hcall => hknown .prestart call ?_⟩
      rw [hcalls]
      exact hcall
    exact ⟨hmakes.inv hs hsequence, calls, hmakes⟩
  · rename_i calls hcalls
    rw [hcalls] at hpre
    have hstart : CallsInOrder s.slices (up s.log) (callUntilFailure .start fails order).1 :=
      callsInOrder_start hsort order [] rfl (fun _ h => by cases h) hs.closed
    have hmakes : s.Makes
        { s with
          running := true, sliceSequence := some order
          log := s.log ++ (calls ++ (callUntilFailure .start fails order).1) }
        (calls ++ (callUntilFailure .start fails order).1) := by
      refine ⟨rfl, rfl, hpre.1.append ?_, fun call hcall => ?_⟩
      · rw [hpre.2]
        exact hstart
      · rcases List.mem_append.mp hcall with hcall | hcall
        · refine hknown .prestart call ?_
          rw [hcalls]
          exact hcall
        · exact hknown .start call hcall
    exact ⟨hmakes.inv hs hsequence, _, hmakes⟩

theorem callsInOrder_shutdown {s : Server} (hs : s.Inv) {order : List ServerSlice}
    (hsort : SliceOrder s.slices order) (fails : SlicePhase → String → Bool) :
    CallsInOrder s.slices (up s.log)
      (callAll .prestop fails order.reverse ++ callAll .stop fails order.reverse) ∧
    (callAll .prestop fails order.reverse ++ callAll .stop fails order.reverse).foldl upStep
      (up s.log) = [] := by
  have hpre : CallsInOrder s.slices (up s.log) (callAll .prestop fails order.reverse) ∧ _ :=
    CallsInOrder.of_pre hs.closed fun call hcall => by
      obtain ⟨slice, -, rfl⟩ := List.mem_map.mp hcall
      exact .inr rfl
  have hstop : CallsInOrder s.slices (up s.log) (callAll .stop fails order.reverse) ∧ _ :=
    callsInOrder_stop hsort order.reverse [] (by simp) hs.up_known (fun _ h => by cases h)
      hs.closed
  refine ⟨hpre.1.append ?_, ?_⟩
  · rw [hpre.2]
    exact hstop.1
  · rw [List.foldl_append, hpre.2]
    exact hstop.2

/-- What a stop does, whatever fails. -/
theorem Inv.stop {s : Server} (hs : s.Inv) (fails : SlicePhase → String → Bool)
    (endpointFails : Bool) :
    (s.stop fails endpointFails).1.Inv ∧ ∃ calls, s.Makes (s.stop fails endpointFails).1 calls := by
  unfold Server.stop
  split
  · exact ⟨hs, [], by simp, rfl, hs.closed, fun _ h => by cases h⟩
  simp only
  split
  · exact ⟨{ hs with }, [], by simp, rfl, hs.closed, fun _ h => by cases h⟩
  split
  · exact ⟨{ hs with }, [], by simp, rfl, hs.closed, fun _ h => by cases h⟩
  rename_i order horder
  have hsort : SliceOrder s.slices order := hs.getSliceSequence_ok horder
  have hmakes : s.Makes
      { s with
        running := false, sliceSequence := some order
        log := s.log ++
          (callAll .prestop fails order.reverse ++ callAll .stop fails order.reverse) }
      (callAll .prestop fails order.reverse ++ callAll .stop fails order.reverse) := by
    refine ⟨rfl, rfl, (callsInOrder_shutdown hs hsort fails).1, fun call hcall => ?_⟩
    refine (hsort.complete _).mp ?_
    rcases List.mem_append.mp hcall with hcall | hcall <;>
    · obtain ⟨slice, hslice, rfl⟩ := List.mem_map.mp hcall
      exact List.mem_map_of_mem (List.mem_reverse.mp hslice)
  refine ⟨hmakes.inv hs ?_, _, hmakes⟩
  rintro order' ⟨⟩
  exact hsort

theorem Inv.step {s s' : Server} {a : Step} (hs : s.Inv) (ha : s.AddedDown a)
    (h : s.step a = some s') : s'.Inv := by
  cases a with
  | addSlice slice =>
      obtain rfl := Option.some.inj h
      exact hs.addSlice ha
  | start fails =>
      obtain rfl := Option.some.inj h
      exact (hs.start fails).1
  | stop fails endpointFails =>
      obtain rfl := Option.some.inj h
      exact (hs.stop fails endpointFails).1

theorem inv_run {s : Server} {as : List Step} (hok : Along step AddedDown init as)
    (h : run step init as = some s) : s.Inv :=
  run_invariant (fun _ _ _ hI ha hstep => hI.step ha hstep) inv_init hok h

theorem map_name_callAll {phase : SlicePhase} {fails : SlicePhase → String → Bool}
    {order : List ServerSlice} :
    (callAll phase fails order).map SliceCall.name = order.map ServerSlice.name := by
  rw [callAll, List.map_map]
  rfl

theorem mem_failures_callAll {phase : SlicePhase} {fails : SlicePhase → String → Bool}
    {order : List ServerSlice} {n : String} :
    n ∈ failures (callAll phase fails order) ↔
      n ∈ order.map ServerSlice.name ∧ fails phase n = true := by
  unfold failures callAll
  simp only [List.mem_map, List.mem_filter]
  constructor
  · rintro ⟨call, ⟨⟨slice, hslice, rfl⟩, hfail⟩, rfl⟩
    exact ⟨⟨slice, hslice, rfl⟩, by simpa using hfail⟩
  · rintro ⟨⟨slice, hslice, rfl⟩, hfail⟩
    exact ⟨_, ⟨⟨slice, hslice, rfl⟩, by simpa using hfail⟩, rfl⟩

theorem running_start (s : Server) (fails : SlicePhase → String → Bool) :
    (s.start fails).1.running = true := by
  unfold Server.start
  split
  · rename_i h
    exact h
  simp only
  split
  · rfl
  · split <;> rfl

theorem getSliceSequence_start {s : Server} (fails : SlicePhase → String → Bool)
    {order : List ServerSlice} (h : s.getSliceSequence = .ok order) :
    (s.start fails).1.getSliceSequence = .ok order := by
  unfold Server.start
  split
  · exact h
  simp only
  split
  · rename_i e he
    cases h.symm.trans he
  · rename_i order' horder'
    obtain rfl := Except.ok.inj (h.symm.trans horder')
    split <;> rfl

end Server

end Inmanta
