import Mathlib.Data.List.Forall2
import StreamFdl.WindowIsolation

/- The attributes of a member: `addAttributeSource` and `getAttributes`. A source is
   a shared memory that is asked once a round and may have nothing new; the member
   then holds on to the value received last.

   What a shared memory answers is an input of each call. `received` keeps, for each
   source, the values that came from it, the first one included. What the windows of
   fault detection are fed with elsewhere, as a function of the names and of the last
   values, is what these calls return (`sampleAttributes_eq`). -/
namespace StreamFdl
open Runs OrderedMap

/-- What `receive` fills into the response. -/
inductive SharedResponse where
  | numerical (value : Rat)
  | other
  deriving DecidableEq, Repr

/-- What comes of `receive(shmResponse, false)` for each source. -/
abbrev Receive := RequestId → Option SharedResponse

namespace Attribute

/-- The body of the loop in `getAttributes`, with its assertion; `none` is no new value. -/
def sample (attr : Attribute) : Option SharedResponse → Option Attribute
  | none => some attr
  | some (.numerical value) => some { attr with lastValue := value }
  | some .other => none

end Attribute

namespace Member

/-- The loop of `getAttributes`: the attributes after it, and the output. -/
def sampleFrom (receive : Receive) :
    List Attribute → AttributeMapping → Option (List Attribute × AttributeMapping)
  | [], output => some ([], output)
  | attr :: rest, output => do
    let attr ← attr.sample (receive attr.requestId)
    let r ← sampleFrom receive rest (output.emplace attr.name attr.lastValue).1
    pure (attr :: r.1, r.2)

def sampleAttributes (receive : Receive) (mmAttributes : List Attribute) :
    Option (List Attribute × AttributeMapping) := sampleFrom receive mmAttributes .empty

def addAttributeSource (mmAttributes : List Attribute) (attributeName : String) (requestID : RequestId) :
    SharedResponse → Option (List Attribute)
  | .numerical value => some (mmAttributes ++ [⟨attributeName, requestID, value⟩])
  | .other => none

/-- The first source of this name. -/
def source (mmAttributes : List Attribute) (name : String) : Option Attribute :=
  mmAttributes.find? fun attr => decide (attr.name = name)

end Member

inductive AttributeOp where
  | addAttributeSource (attributeName : String) (requestID : RequestId) (response : SharedResponse)
  | getAttributes (receive : Receive)

/-- A member's attributes, the values received from each, and what was returned last. -/
structure AttributeState where
  mmAttributes : List Attribute
  received : List (List Rat)
  output : AttributeMapping

namespace AttributeState

def new : AttributeState := ⟨[], [], .empty⟩

/-- The values received from a source, with a new answer. -/
def hear (values : List Rat) : Option SharedResponse → List Rat
  | some (.numerical value) => values ++ [value]
  | _ => values

def step (s : AttributeState) : AttributeOp → Option AttributeState
  | .addAttributeSource attributeName requestID response => do
    let mmAttributes ← Member.addAttributeSource s.mmAttributes attributeName requestID response
    pure { s with mmAttributes := mmAttributes, received := s.received ++ [hear [] (some response)] }
  | .getAttributes receive => do
    let r ← Member.sampleAttributes receive s.mmAttributes
    pure ⟨r.1, List.zipWith (fun attr values => hear values (receive attr.requestId)) s.mmAttributes s.received,
      r.2⟩

/-- Every answer is a number. -/
def Numerical (s : AttributeState) : AttributeOp → Prop
  | .addAttributeSource _ _ response => response ≠ .other
  | .getAttributes receive => ∀ attr ∈ s.mmAttributes, receive attr.requestId ≠ some .other

/-- A source and the values received from it: the member holds the newest. -/
def Holds (attr : Attribute) (values : List Rat) : Prop := values.getLast? = some attr.lastValue

end AttributeState

/-! ### One call -/

theorem descriptors_apart : ∀ a b : String, Equiv (· < ·) a b ↔ a = b := fun _ _ => equiv_iff_eq

namespace Attribute

variable {attr attr' : Attribute} {answer : Option SharedResponse}

theorem sample_defined_iff (attr : Attribute) (answer : Option SharedResponse) :
    (∃ attr', attr.sample answer = some attr') ↔ answer ≠ some .other := by
  match answer with
  | none => simp [sample]
  | some (.numerical value) => simp [sample]
  | some .other => simp [sample]

theorem sample_name (h : attr.sample answer = some attr') : attr'.name = attr.name ∧ attr'.requestId = attr.requestId := by
  match answer with
  | none => cases h; exact ⟨rfl, rfl⟩
  | some (.numerical value) => cases h; exact ⟨rfl, rfl⟩
  | some .other => cases h

/-- A new value is held, and without one the old value. -/
theorem sample_holds {values : List Rat} (hold : AttributeState.Holds attr values) (h : attr.sample answer = some attr') :
    AttributeState.Holds attr' (AttributeState.hear values answer) := by
  match answer with
  | none =>
    cases h
    exact hold
  | some (.numerical value) =>
    cases h
    exact List.getLast?_concat
  | some .other => cases h

end Attribute

namespace Member

variable {receive : Receive} {attributes : List Attribute} {output : AttributeMapping}
  {r : List Attribute × AttributeMapping}

theorem sampleFrom_cons_eq (receive : Receive) (attr : Attribute) (rest : List Attribute) (output : AttributeMapping) :
    sampleFrom receive (attr :: rest) output = (attr.sample (receive attr.requestId)).bind fun attr' =>
      (sampleFrom receive rest (output.emplace attr'.name attr'.lastValue).1).bind fun r => some (attr' :: r.1, r.2) :=
  rfl

theorem sampleFrom_cons {attr : Attribute} (h : sampleFrom receive (attr :: attributes) output = some r) :
    ∃ attr' r', attr.sample (receive attr.requestId) = some attr' ∧
      sampleFrom receive attributes (output.emplace attr'.name attr'.lastValue).1 = some r' ∧
      r = (attr' :: r'.1, r'.2) := by
  obtain ⟨attr', hsample, h⟩ := Option.bind_eq_some_iff.mp h
  obtain ⟨r', hrest, h⟩ := Option.bind_eq_some_iff.mp h
  exact ⟨attr', r', hsample, hrest, (Option.some.inj h).symm⟩

theorem sampleFrom_defined_iff (receive : Receive) (attributes : List Attribute) (output : AttributeMapping) :
    (∃ r, sampleFrom receive attributes output = some r) ↔
      ∀ attr ∈ attributes, receive attr.requestId ≠ some .other := by
  induction attributes generalizing output with
  | nil => exact ⟨fun _ _ h => (by cases h), fun _ => ⟨_, rfl⟩⟩
  | cons attr rest ih =>
    constructor
    · rintro ⟨r, h⟩
      obtain ⟨attr', r', hsample, hrest, -⟩ := sampleFrom_cons h
      exact List.forall_mem_cons.mpr ⟨(attr.sample_defined_iff _).mp ⟨attr', hsample⟩, (ih _).mp ⟨r', hrest⟩⟩
    · intro h
      obtain ⟨hattr, hrest⟩ := List.forall_mem_cons.mp h
      obtain ⟨attr', hsample⟩ := (attr.sample_defined_iff _).mpr hattr
      obtain ⟨r', hr'⟩ := (ih (output.emplace attr'.name attr'.lastValue).1).mpr hrest
      exact ⟨(attr' :: r'.1, r'.2), by rw [sampleFrom_cons_eq, hsample, Option.bind_some, hr', Option.bind_some]⟩

/-- Each attribute is sampled once, and those with a name that came before are not in the output. -/
theorem sampleFrom_spec (h : sampleFrom receive attributes output = some r) :
    List.Forall₂ (fun attr attr' => attr.sample (receive attr.requestId) = some attr') attributes r.1 ∧
      ∀ d, r.2.lookup d = (output.lookup d).or ((source r.1 d).map Attribute.lastValue) := by
  induction attributes generalizing output r with
  | nil =>
    cases h
    exact ⟨.nil, fun d => by simp [source]⟩
  | cons attr rest ih =>
    obtain ⟨attr', r', hsample, hrest, rfl⟩ := sampleFrom_cons h
    obtain ⟨hall, hlookup⟩ := ih hrest
    refine ⟨.cons hsample hall, fun d => ?_⟩
    rw [hlookup d]
    by_cases hd : d = attr'.name
    · subst hd
      rw [lookup_emplace_self descriptors_apart]
      cases output.lookup attr'.name <;> simp [source]
    · rw [lookup_emplace_of_ne descriptors_apart hd]
      simp [source, Ne.symm hd]

/-- The output in terms of any function that gives the values of the first sources. -/
theorem sampleFrom_eq (h : sampleFrom receive attributes output = some r) (lastValue : String → Rat)
    (hfirst : ∀ d, output.lookup d = none → ∀ attr, source r.1 d = some attr → lastValue d = attr.lastValue) :
    r.2 = (attributes.map Attribute.name).foldl (fun output name => (output.emplace name (lastValue name)).1) output := by
  induction attributes generalizing output r with
  | nil =>
    cases h
    rfl
  | cons attr rest ih =>
    obtain ⟨attr', r', hsample, hrest, rfl⟩ := sampleFrom_cons h
    have hname := (Attribute.sample_name hsample).1
    -- the value plays no part where the name is there already
    have hemplace : (output.emplace attr'.name attr'.lastValue).1 = (output.emplace attr.name (lastValue attr.name)).1 := by
      rw [← hname]
      cases hlookup : output.lookup attr'.name with
      | none => rw [hfirst attr'.name hlookup attr' (by simp [source])]
      | some v =>
        have hthere : (output.lookup attr'.name).isSome = true := by rw [hlookup]; rfl
        rw [emplace_of_lookup descriptors_apart hthere, emplace_of_lookup descriptors_apart hthere]
    rw [ih hrest, List.map_cons, List.foldl_cons, hemplace]
    intro d hd a ha
    by_cases hda : d = attr'.name
    · subst hda
      rw [lookup_emplace_self descriptors_apart] at hd
      cases hd
    · rw [lookup_emplace_of_ne descriptors_apart hda] at hd
      exact hfirst d hd a (by simpa [source, Ne.symm hda] using ha)

/-- What a call returns is the function of the names and of the values held that the windows are fed with. -/
theorem sampleAttributes_eq (h : sampleAttributes receive attributes = some r) :
    r.2 = getAttributes (attributes.map Attribute.name)
      fun d => ((source r.1 d).map Attribute.lastValue).getD 0 :=
  sampleFrom_eq h _ fun d _ attr hattr => by simp [hattr]

end Member

/-! ### Runs -/

namespace AttributeState

variable {s t : AttributeState} {op : AttributeOp}

theorem step_defined_iff (s : AttributeState) (op : AttributeOp) : (∃ t, s.step op = some t) ↔ s.Numerical op := by
  cases op with
  | addAttributeSource attributeName requestID response => cases response <;> simp [step, Member.addAttributeSource, Numerical]
  | getAttributes receive =>
    rw [Numerical, ← Member.sampleFrom_defined_iff receive s.mmAttributes .empty]
    simp [step, Member.sampleAttributes, Option.bind_eq_some_iff]

/-- Each source holds the newest of its values. -/
def Current (s : AttributeState) : Prop := List.Forall₂ Holds s.mmAttributes s.received

theorem new_current : new.Current := .nil

theorem holds_sampled {receive : Receive} {attributes attributes' : List Attribute} {received : List (List Rat)}
    (h : List.Forall₂ Holds attributes received)
    (hall : List.Forall₂ (fun attr attr' => attr.sample (receive attr.requestId) = some attr') attributes attributes') :
    List.Forall₂ Holds attributes'
      (List.zipWith (fun attr values => hear values (receive attr.requestId)) attributes received) := by
  induction h generalizing attributes' with
  | nil =>
    cases hall
    exact .nil
  | cons hold _ ih =>
    cases hall with
    | cons hsample hrest => exact .cons (Attribute.sample_holds hold hsample) (ih hrest)

theorem Current.step (h : s.Current) (hs : s.step op = some t) : t.Current := by
  cases op with
  | addAttributeSource attributeName requestID response =>
    cases response with
    | other => cases hs
    | numerical value =>
      cases hs
      exact List.rel_append h (.cons rfl .nil)
  | getAttributes receive =>
    obtain ⟨r, hr, hs⟩ := Option.bind_eq_some_iff.mp hs
    cases hs
    exact holds_sampled h (Member.sampleFrom_spec hr).1

/-- The values received from the first source of a name. -/
def heard (s : AttributeState) (name : String) : Option (List Rat) :=
  ((s.mmAttributes.zip s.received).find? fun e => decide (e.1.name = name)).map Prod.snd

theorem Current.source (h : s.Current) (name : String) :
    (Member.source s.mmAttributes name).map Attribute.lastValue = (s.heard name).bind List.getLast? := by
  obtain ⟨mmAttributes, received, output⟩ := s
  simp only [Current, heard] at h ⊢
  induction h with
  | nil => rfl
  | @cons attr values attributes received hold _ ih =>
    by_cases hname : attr.name = name
    · simp [Member.source, hname, show values.getLast? = some attr.lastValue from hold]
    · simpa [Member.source, hname] using ih

end AttributeState

/-- Over every sequence of calls: it goes through exactly when every answer is a number, and then
    `getAttributes` returns, under each name, the newest value received from the first source of
    that name, whether it came in this call or before. -/
theorem attributes_held (ops : List AttributeOp) (receive : Receive) :
    ((∃ s, run AttributeState.step .new (ops ++ [.getAttributes receive]) = some s) ↔
      Along AttributeState.step AttributeState.Numerical .new (ops ++ [.getAttributes receive])) ∧
    ∀ s, run AttributeState.step .new (ops ++ [.getAttributes receive]) = some s →
      ∀ name, s.output.lookup name = (s.heard name).bind List.getLast? := by
  refine ⟨run_defined_iff (I := fun _ => True) (fun s op _ => s.step_defined_iff op) (fun _ _ _ _ _ => trivial) trivial,
    fun s hr name => ?_⟩
  have hcurrent : s.Current := run_preserves (fun _ _ _ h hs => h.step hs) AttributeState.new_current hr
  rw [run_append] at hr
  obtain ⟨u, -, hr⟩ := Option.bind_eq_some_iff.mp hr
  obtain ⟨v, hv, hr⟩ := Option.bind_eq_some_iff.mp hr
  obtain ⟨r, hsample, hv⟩ := Option.bind_eq_some_iff.mp hv
  cases hv
  cases hr
  rw [(Member.sampleFrom_spec hsample).2 name, lookup_empty, Option.none_or]
  exact hcurrent.source name

end StreamFdl
