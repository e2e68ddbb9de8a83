import Inmanta.Lib.Dict
import Inmanta.Lib.Utf8
import Mathlib.Data.List.Sort
import Mathlib.Data.String.Basic

/-!
# The version of a module

`CodeManager.get_module_version` feeds the sorted hash values of the files and
the sorted requirements to one hash, with nothing in between. The hash values
all have the same length, so the texts of two modules are the same exactly when
the hash values of one go on where those of the other end, with hash values
that its requirements begin with (`text_eq_iff`). The names of the files and
the byte-code flags are not part of the text.
-/

namespace Inmanta

namespace ModuleVersion

/-- `ModuleSourceMetadata` -/
structure ModuleSourceMetadata where
  name : String
  hashValue : String
  isByteCode : Bool
  deriving DecidableEq, Repr

structure InmantaModule where
  name : String
  version : String
  filesInModule : List ModuleSourceMetadata
  requirements : List String
  forAgents : List String
  deriving DecidableEq, Repr

/-- What an Inmanta module is registered with: its files, a set, each with the
digest of its content, and the set of its requirements. -/
structure Sources where
  files : List ModuleSourceMetadata
  files_nodup : files.Nodup
  hashValue_length : ∀ f ∈ files, f.hashValue.length = 40
  requirements : List String
  requirements_nodup : requirements.Nodup

/-- The same code: the same set of files and the same set of requirements. -/
structure Sources.Same (s s' : Sources) : Prop where
  files : ∀ f, f ∈ s.files ↔ f ∈ s'.files
  requirements : ∀ r, r ∈ s.requirements ↔ r ∈ s'.requirements

section

variable (hexdigest : List UInt8 → String)

/-- All that the hash is updated with. -/
def hashed (requirements : List String) (moduleSources : List ModuleSourceMetadata) :
    List UInt8 :=
  ((moduleSources.insertionSort fun a b => a.hashValue ≤ b.hashValue).flatMap fun moduleSource =>
      utf8 moduleSource.hashValue.toList) ++
    (requirements.insertionSort (· ≤ ·)).flatMap fun requirement => utf8 requirement.toList

/-- `hexdigest` is that of SHA-1. -/
def getModuleVersion (requirements : List String) (moduleSources : List ModuleSourceMetadata) :
    String :=
  hexdigest (hashed requirements moduleSources)

def registerInmantaModule (moduleVersionInfo : Dict String InmantaModule)
    (inmantaModuleName : String) (module : Sources) : Dict String InmantaModule :=
  if inmantaModuleName ∈ moduleVersionInfo then moduleVersionInfo
  else
    moduleVersionInfo.set inmantaModuleName
      { name := inmantaModuleName
        version := getModuleVersion hexdigest module.requirements module.files
        filesInModule := module.files
        requirements := module.requirements
        forAgents := [] }

end

/-! ## The text that is hashed -/

def Sources.hashValues (s : Sources) : List String :=
  (s.files.map (·.hashValue)).insertionSort (· ≤ ·)

/-- The sorted strings, one after the other. -/
def joined (l : List String) : List Char :=
  (l.insertionSort (· ≤ ·)).flatMap String.toList

theorem sorted_congr {l l' : List String} (h : l.Perm l') :
    l.insertionSort (· ≤ ·) = l'.insertionSort (· ≤ ·) :=
  (((List.perm_insertionSort _ l).trans h).trans
    (List.perm_insertionSort _ l').symm).eq_of_sortedLE
    List.sortedLE_insertionSort List.sortedLE_insertionSort

theorem map_hashValue_insertionSort (files : List ModuleSourceMetadata) :
    (files.insertionSort fun a b => a.hashValue ≤ b.hashValue).map (·.hashValue)
      = (files.map (·.hashValue)).insertionSort (· ≤ ·) :=
  List.map_insertionSort _ _ _ _ fun _ _ _ _ => Iff.rfl

theorem flatMap_utf8 (l : List String) :
    l.flatMap (fun s => utf8 s.toList) = utf8 (l.flatMap String.toList) := by
  induction l with
  | nil => rfl
  | cons s l ih => rw [List.flatMap_cons, List.flatMap_cons, utf8_append, ih]

theorem hashed_eq (s : Sources) : hashed s.requirements s.files
    = utf8 (s.hashValues.flatMap String.toList ++ joined s.requirements) := by
  have hfiles : ((s.files.insertionSort fun a b => a.hashValue ≤ b.hashValue).flatMap
      fun f => utf8 f.hashValue.toList) = utf8 (s.hashValues.flatMap String.toList) := by
    rw [← flatMap_utf8, Sources.hashValues, ← map_hashValue_insertionSort, List.flatMap_map]
  rw [hashed, hfiles, flatMap_utf8, utf8_append, joined]

theorem Sources.length_of_mem_hashValues {s : Sources} {h : String} (hh : h ∈ s.hashValues) :
    h.length = 40 := by
  rw [hashValues, List.mem_insertionSort] at hh
  obtain ⟨f, hf, rfl⟩ := List.mem_map.mp hh
  exact s.hashValue_length f hf

/-- The strings of the second list go on after those of the first, and the text that
follows the first list begins with them. -/
def Continues (l l' : List String) (x y : List Char) : Prop :=
  ∃ more, l' = l ++ more ∧ x = more.flatMap String.toList ++ y

theorem Continues.cons {l l' : List String} {x y : List Char} (h : Continues l l' x y)
    (s : String) : Continues (s :: l) (s :: l') x y := by
  obtain ⟨more, rfl, rfl⟩ := h
  exact ⟨more, rfl, rfl⟩

/-- Texts that begin with strings of one length. -/
theorem flatMap_append_eq_iff {n : ℕ} {l l' : List String} (hl : ∀ s ∈ l, s.length = n)
    (hl' : ∀ s ∈ l', s.length = n) {x y : List Char} :
    l.flatMap String.toList ++ x = l'.flatMap String.toList ++ y ↔
      Continues l l' x y ∨ Continues l' l y x := by
  induction l generalizing l' with
  | nil =>
      refine ⟨fun h => Or.inl ⟨l', rfl, h⟩, ?_⟩
      rintro (⟨more, rfl, rfl⟩ | ⟨more, hnil, rfl⟩)
      · rfl
      · obtain ⟨rfl, rfl⟩ := List.append_eq_nil_iff.mp hnil.symm
        rfl
  | cons s l ih =>
      cases l' with
      | nil =>
          refine ⟨fun h => Or.inr ⟨s :: l, rfl, h.symm⟩, ?_⟩
          rintro (⟨more, hnil, rfl⟩ | ⟨more, hmore, rfl⟩)
          · exact absurd hnil (by simp)
          · obtain rfl : s :: l = more := hmore
            rfl
      | cons s' l' =>
          have hlen : s.toList.length = s'.toList.length := by
            rw [String.length_toList, String.length_toList, hl s List.mem_cons_self,
              hl' s' List.mem_cons_self]
          have hrest := ih (fun t ht => hl t (List.mem_cons_of_mem _ ht))
            (fun t ht => hl' t (List.mem_cons_of_mem _ ht))
          rw [List.flatMap_cons, List.flatMap_cons, List.append_assoc, List.append_assoc]
          constructor
          · intro h
            obtain ⟨hs, htail⟩ := List.append_inj h hlen
            obtain rfl := String.toList_injective hs
            exact (hrest.mp htail).imp (fun h => h.cons s) fun h => h.cons s
          · rintro (⟨more, hmore, hx⟩ | ⟨more, hmore, hx⟩)
            · obtain ⟨rfl, htail⟩ := List.cons.inj hmore
              rw [hrest.mpr (Or.inl ⟨more, htail, hx⟩)]
            · obtain ⟨rfl, htail⟩ := List.cons.inj hmore
              rw [hrest.mpr (Or.inr ⟨more, htail, hx⟩)]

/-- The hash values of the second module go on after those of the first, and the
requirements of the first begin with the hash values that it lacks. -/
def Sources.ContinuedBy (s s' : Sources) : Prop :=
  Continues s.hashValues s'.hashValues (joined s.requirements) (joined s'.requirements)

theorem hashed_eq_iff (s s' : Sources) :
    hashed s.requirements s.files = hashed s'.requirements s'.files ↔
      s.ContinuedBy s' ∨ s'.ContinuedBy s := by
  rw [hashed_eq, hashed_eq, utf8_injective.eq_iff]
  exact flatMap_append_eq_iff (fun _ => Sources.length_of_mem_hashValues)
    fun _ => Sources.length_of_mem_hashValues

/-- Neither the order of the files nor that of the requirements matters. -/
theorem Sources.Same.hashed_eq {s s' : Sources} (h : s.Same s') :
    hashed s.requirements s.files = hashed s'.requirements s'.files := by
  have hfiles := (List.perm_ext_iff_of_nodup s.files_nodup s'.files_nodup).mpr h.files
  have hreq := (List.perm_ext_iff_of_nodup s.requirements_nodup s'.requirements_nodup).mpr
    h.requirements
  have hvalues : s.hashValues = s'.hashValues := sorted_congr (hfiles.map _)
  rw [ModuleVersion.hashed_eq, ModuleVersion.hashed_eq, hvalues, joined, joined,
    sorted_congr hreq]

/-! ## The version -/

variable {hexdigest : List UInt8 → String}

/-- A module that is registered for the first time gets the version of its sources, and
keeps it. -/
theorem registerInmantaModule_version {info : Dict String InmantaModule} {name : String}
    (h : name ∉ info) (s s' : Sources) :
    let info' := registerInmantaModule hexdigest info name s
    (info'.get? name).map (·.version)
        = some (getModuleVersion hexdigest s.requirements s.files) ∧
      registerInmantaModule hexdigest info' name s' = info' := by
  rw [registerInmantaModule, if_neg h]
  refine ⟨by simp, ?_⟩
  rw [registerInmantaModule, if_pos (Dict.mem_set.mpr (Or.inl rfl))]

/-- The version tells two modules apart unless the text that is hashed hides the
difference. -/
theorem getModuleVersion_identifies_iff (s s' : Sources)
    (hfree : hexdigest (hashed s.requirements s.files)
        = hexdigest (hashed s'.requirements s'.files) →
      hashed s.requirements s.files = hashed s'.requirements s'.files) :
    (getModuleVersion hexdigest s.requirements s.files
        = getModuleVersion hexdigest s'.requirements s'.files ↔ s.Same s') ↔
      s.Same s' ∨ ¬ (s.ContinuedBy s' ∨ s'.ContinuedBy s) := by
  have hversion : getModuleVersion hexdigest s.requirements s.files
      = getModuleVersion hexdigest s'.requirements s'.files ↔
        s.ContinuedBy s' ∨ s'.ContinuedBy s :=
    ⟨fun h => (hashed_eq_iff s s').mp (hfree h),
      fun h => congrArg hexdigest ((hashed_eq_iff s s').mpr h)⟩
  have hsame : s.Same s' → s.ContinuedBy s' ∨ s'.ContinuedBy s :=
    fun h => (hashed_eq_iff s s').mp h.hashed_eq
  rw [hversion]
  tauto

/-- A module with the one file `x = 1`. -/
def oneFile (name : String) (requirements : List String) (h : requirements.Nodup) : Sources where
  files := [⟨name, "e139f73e34322031189110afc1939eb1877a8954", false⟩]
  files_nodup := List.nodup_singleton _
  hashValue_length := by
    intro f hf
    obtain rfl := List.mem_singleton.mp hf
    simp [String.length]
  requirements := requirements
  requirements_nodup := h

/-- Another requirement is another version. -/
theorem getModuleVersion_identifies_requirement :
    let s := oneFile "inmanta_plugins.m" ["requests"] (by decide)
    let s' := oneFile "inmanta_plugins.m" ["pyyaml"] (by decide)
    let sha1 := fun text : List UInt8 =>
      if text = utf8 "e139f73e34322031189110afc1939eb1877a8954requests".toList
      then "29b8f18ce3d33bde63d08adc8f73252abcd09be1"
      else "3e848a6e6aea4424d102b684d2a3b1665a0f6119"
    (getModuleVersion sha1 s.requirements s.files
        = getModuleVersion sha1 s'.requirements s'.files ↔ s.Same s') ↔
      s.Same s' ∨ ¬ (s.ContinuedBy s' ∨ s'.ContinuedBy s) := by
  intro s s' sha1
  refine getModuleVersion_identifies_iff s s' fun h => ?_
  have hs : hashed s.requirements s.files
      = utf8 "e139f73e34322031189110afc1939eb1877a8954requests".toList := by decide +kernel
  have hs' : hashed s'.requirements s'.files
      ≠ utf8 "e139f73e34322031189110afc1939eb1877a8954requests".toList := by decide +kernel
  simp only [sha1, if_pos hs, if_neg hs'] at h
  exact absurd h (by decide)

/-- A file gets another name, and the text of two requirements becomes that of one. -/
theorem getModuleVersion_not_identifies :
    let s := oneFile "inmanta_plugins.m.a" ["pyyaml", "requests"] (by decide)
    let renamed := oneFile "inmanta_plugins.m.b" ["pyyaml", "requests"] (by decide)
    let redistributed := oneFile "inmanta_plugins.m.a" ["pyyamlrequests"] (by decide)
    ¬ s.Same renamed ∧ ¬ s.Same redistributed ∧ ∀ sha1 : List UInt8 → String,
      getModuleVersion sha1 s.requirements s.files
          = getModuleVersion sha1 renamed.requirements renamed.files ∧
        getModuleVersion sha1 s.requirements s.files
          = getModuleVersion sha1 redistributed.requirements redistributed.files := by
  intro s renamed redistributed
  refine ⟨fun h => ?_, fun h => ?_, fun sha1 => ⟨?_, ?_⟩⟩
  · have hmem := (h.files _).mp List.mem_cons_self
    simp [renamed, oneFile] at hmem
  · have hmem := (h.requirements "pyyaml").mp List.mem_cons_self
    simp [redistributed, oneFile] at hmem
  · refine congrArg sha1 ?_
    decide +kernel
  · refine congrArg sha1 ?_
    decide +kernel

end ModuleVersion

end Inmanta
