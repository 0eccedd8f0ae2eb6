import StreamFdl.Base.FoldView
import StreamFdl.FullGraphView
import StreamFdl.TextualResponse

/- `DataStore::getFullGraphView` from the packages on: the text they carry is
   parsed, the row of the query's result is looked up, and its lists are read
   while the graph is put together.

   The values and all that is asked of them belong to the JSON library, which is
   not part of the repository: `JsonLibrary` has a function for each call of the
   source. A call may throw, and an exception and a failed assertion both end the
   program, so there is no result. Only of `operator[]` on the row, which is not
   constant, the code relies on more than that there is an answer: it gives the
   entry if there is one, and otherwise adds null, over which a loop makes no pass
   (`Documented`). What it adds no other access of the source asks for.

   What has to be there for a graph to come out is `Describes`. -/
namespace StreamFdl
open FoldView

/-- What the source uses of the JSON library. -/
structure JsonLibrary (J : Type) where
  parse : String → Option J
  /-- `at(key)` -/
  atKey : J → String → Option J
  /-- `at(idx)` -/
  atIndex : J → Nat → Option J
  /-- `operator[]` on a constant value. -/
  get : J → String → Option J
  /-- `operator[]` on a value that is not constant. -/
  entry : J → String → Option J
  /-- `get<std::string>()`, and the conversion to a string. -/
  getString : J → Option String
  isNull : J → Bool
  isObject : J → Bool
  /-- What a loop over the value goes through. -/
  items : J → List J

namespace JsonLibrary

variable {J : Type}

/-- What the code relies on for the lists of the row. -/
structure Documented (json : JsonLibrary J) : Prop where
  entry_present : ∀ object key value, json.isObject object = true → json.get object key = some value →
    json.entry object key = some value
  entry_missing : ∀ object key, json.isObject object = true → json.get object key = none →
    ∃ value, json.entry object key = some value ∧ json.items value = []

variable (json : JsonLibrary J)

/-- `["primaryKey"].get<PrimaryKey>()` -/
def primaryKey (member : J) : Option PrimaryKey := (json.get member "primaryKey").bind json.getString

/-- The way to the row, and the assertion that it is an object. -/
def row (response : J) : Option J := do
  let queryResponseData ← json.atKey response "results"
  let queryResponseData ← json.atIndex queryResponseData 0
  let queryResponseData ← json.atKey queryResponseData "data"
  let queryResponseData ← json.atIndex queryResponseData 0
  let queryResponseData ← json.atKey queryResponseData "row"
  let queryResponseData ← json.atIndex queryResponseData 0
  if json.isObject queryResponseData then some queryResponseData else none

theorem row_isObject {response queryResponseData : J} (h : json.row response = some queryResponseData) :
    json.isObject queryResponseData = true := by
  simp only [row, Option.bind_eq_bind, Option.bind_eq_some_iff, Option.ite_none_right_eq_some,
    Option.some.injEq] at h
  obtain ⟨_, _, _, _, _, _, _, _, _, _, _, _, hobject, rfl⟩ := h
  exact hobject

end JsonLibrary

section Library
variable {J : Type} (json : JsonLibrary J)

/-- A pass of a loop over edges, from the entry of the list on. -/
def GraphView.readEdge (ignored : QueryEdge → Bool) (isTopic : Bool) (output : GraphView) (edge : J) :
    Option GraphView := do
  let rel ← json.get edge "rel"
  if json.isNull rel then some output
  else
    let fromPrimaryKey ← json.primaryKey (← json.get edge "from")
    let toPrimaryKey ← json.primaryKey (← json.get edge "to")
    if ignored ⟨fromPrimaryKey, toPrimaryKey⟩ then some output
    else output.connect fromPrimaryKey ⟨toPrimaryKey, isTopic⟩

namespace DataStore

def readNode (output : GraphView) (node : J) : Option GraphView := do
  let primaryKey ← json.primaryKey node
  some (output ++ [⟨⟨primaryKey, false⟩, []⟩])

def readTopic (s : DataStore) (output : GraphView) (topic : J) : Option GraphView := do
  let primaryKey ← json.primaryKey topic
  if s.checkTopicPrimaryIgnored primaryKey then some output
  else some (output ++ [⟨⟨primaryKey, true⟩, []⟩])

def readSub (s : DataStore) : GraphView → J → Option GraphView :=
  GraphView.readEdge json (fun sub => s.checkTopicPrimaryIgnored sub.fromPrimaryKey) false

def readPub (s : DataStore) : GraphView → J → Option GraphView :=
  GraphView.readEdge json (fun pub => s.checkTopicPrimaryIgnored pub.toPrimaryKey) true

def readSend : GraphView → J → Option GraphView := GraphView.readEdge json (fun _ => false) false

/-- A loop over the list of the row that is called `key`. -/
def readList (queryResponseData : J) (key : String) (read : GraphView → J → Option GraphView)
    (output : GraphView) : Option GraphView := do
  let list ← json.entry queryResponseData key
  (json.items list).foldlM read output

/-- From the parsed response on. -/
def readGraphView (s : DataStore) (response : J) : Option GraphView := do
  let queryResponseData ← json.row response
  let output ← readList json queryResponseData "active" (readNode json) []
  let output ← readList json queryResponseData "passive" (s.readTopic json) output
  let output ← readList json queryResponseData "sub" (s.readSub json) output
  let output ← readList json queryResponseData "pub" (s.readPub json) output
  readList json queryResponseData "send" (readSend json) output

/-- From the packages on. No result as long as a package is waited for. -/
def receiveGraphView (s : DataStore) (received : List Package) : Option GraphView :=
  match reassemble received with
  | .over queryResponseString => (json.parse queryResponseString).bind (s.readGraphView json)
  | _ => none

end DataStore

end Library

/-! What a response says. -/

namespace JsonLibrary

variable {J : Type} (json : JsonLibrary J)

/-- The value is that of a node or topic. -/
def IsMember (member : J) (primaryKey : PrimaryKey) : Prop := json.primaryKey member = some primaryKey

/-- The entry of an edge; of one without a relation nothing else is asked. -/
inductive IsEdge (entry : J) : Option QueryEdge → Prop where
  | absent (rel : J) : json.get entry "rel" = some rel → json.isNull rel = true → IsEdge entry none
  | edge (rel source target : J) (edge : QueryEdge) : json.get entry "rel" = some rel → json.isNull rel = false →
      json.get entry "from" = some source → json.IsMember source edge.fromPrimaryKey →
      json.get entry "to" = some target → json.IsMember target edge.toPrimaryKey → IsEdge entry (some edge)

/-- The row has this list under the key; a list that is not there is empty. -/
def Lists {A : Type} (queryResponseData : J) (key : String) (IsEntry : J → A → Prop) (xs : List A) : Prop :=
  (∃ list, json.get queryResponseData key = some list ∧ List.Forall₂ IsEntry (json.items list) xs) ∨
    json.get queryResponseData key = none ∧ xs = []

/-- The lists of the row are those of `data`. -/
structure Describes (queryResponseData : J) (data : QueryResponseData) : Prop where
  active : json.Lists queryResponseData "active" json.IsMember data.active
  passive : json.Lists queryResponseData "passive" json.IsMember data.passive
  sub : json.Lists queryResponseData "sub" json.IsEdge data.sub
  pub : json.Lists queryResponseData "pub" json.IsEdge data.pub
  send : json.Lists queryResponseData "send" json.IsEdge data.send

variable {json}

/-- The list that a loop over the row goes through is the one that the row has. -/
theorem Documented.lists_iff (documented : json.Documented) {queryResponseData : J}
    (hobject : json.isObject queryResponseData = true) {A : Type} (key : String) (IsEntry : J → A → Prop)
    (xs : List A) : (∃ list, json.entry queryResponseData key = some list ∧
      List.Forall₂ IsEntry (json.items list) xs) ↔ json.Lists queryResponseData key IsEntry xs := by
  unfold Lists
  cases hget : json.get queryResponseData key with
  | some value =>
    rw [documented.entry_present _ _ _ hobject hget]
    simp
  | none =>
    obtain ⟨value, hvalue, hitems⟩ := documented.entry_missing _ _ hobject hget
    rw [hvalue]
    simp [hitems]

end JsonLibrary

/-! The loops read what `getFullGraphView` works on. -/

namespace GraphView

variable {J : Type} {json : JsonLibrary J} {output view : GraphView}

/-- A pass of a loop over edges reads an edge, and then does what the pass does with it. -/
theorem readEdge_eq_some_iff (ignored : QueryEdge → Bool) (isTopic : Bool) (output : GraphView) (entry : J)
    (view : GraphView) : readEdge json ignored isTopic output entry = some view ↔
      ∃ edge, json.IsEdge entry edge ∧ addEdge ignored isTopic output edge = some view := by
  constructor
  · intro h
    obtain ⟨rel, hrel, h⟩ := Option.bind_eq_some_iff.mp h
    cases hnull : json.isNull rel with
    | true =>
      rw [hnull, if_pos rfl] at h
      exact ⟨none, .absent rel hrel hnull, h⟩
    | false =>
      rw [hnull, if_neg Bool.false_ne_true] at h
      obtain ⟨source, hsource, h⟩ := Option.bind_eq_some_iff.mp h
      obtain ⟨fromPrimaryKey, hfrom, h⟩ := Option.bind_eq_some_iff.mp h
      obtain ⟨target, htarget, h⟩ := Option.bind_eq_some_iff.mp h
      obtain ⟨toPrimaryKey, hto, h⟩ := Option.bind_eq_some_iff.mp h
      exact ⟨some ⟨fromPrimaryKey, toPrimaryKey⟩,
        .edge rel source target _ hrel hnull hsource hfrom htarget hto, h⟩
  · rintro ⟨edge, hedge, h⟩
    cases hedge with
    | absent rel hrel hnull =>
      simp only [readEdge, hrel, hnull, Option.bind_eq_bind, Option.bind_some]
      exact h
    | edge rel source target edge hrel hnull hsource hfrom htarget hto =>
      unfold JsonLibrary.IsMember at hfrom hto
      simp only [readEdge, hrel, hnull, hsource, hfrom, htarget, hto, Option.bind_eq_bind, Option.bind_some]
      exact h

/-- A loop that adds vertices for some of the keys. -/
theorem foldlM_push (keep : PrimaryKey → Bool) (isTopic : Bool) (ks : List PrimaryKey) (output : GraphView) :
    ks.foldlM (fun output k => if keep k then some (output ++ [⟨⟨k, isTopic⟩, []⟩]) else some output) output =
      some (output ++ (ks.filter keep).map fun k => ⟨⟨k, isTopic⟩, []⟩) := by
  induction ks generalizing output with
  | nil => simp
  | cons k ks ih =>
    rw [List.foldlM_cons]
    cases hk : keep k with
    | true =>
      rw [List.filter_cons_of_pos hk, List.map_cons]
      show List.foldlM _ _ ks = _
      rw [ih, List.append_assoc]
      rfl
    | false =>
      rw [List.filter_cons_of_neg (by simp [hk])]
      exact ih output

end GraphView

namespace DataStore

section Lists
variable {J : Type} {json : JsonLibrary J} {queryResponseData : J} {key : String} {output view : GraphView}
  (documented : json.Documented) (hobject : json.isObject queryResponseData = true)
include documented hobject

/-- A loop over a list of the row, given what a pass reads and does. -/
theorem readList_iff {X : Type} {IsEntry : J → X → Prop} {read : GraphView → J → Option GraphView}
    {pass : GraphView → X → Option GraphView}
    (hread : ∀ output entry view, read output entry = some view ↔ ∃ x, IsEntry entry x ∧ pass output x = some view) :
    readList json queryResponseData key read output = some view ↔
      ∃ xs, json.Lists queryResponseData key IsEntry xs ∧ xs.foldlM pass output = some view := by
  constructor
  · intro h
    obtain ⟨list, hlist, h⟩ := Option.bind_eq_some_iff.mp h
    obtain ⟨xs, hxs, h⟩ := (foldlM_eq_some_iff hread _ _ _).mp h
    exact ⟨xs, (documented.lists_iff hobject key IsEntry xs).mp ⟨list, hlist, hxs⟩, h⟩
  · rintro ⟨xs, hxs, h⟩
    obtain ⟨list, hlist, hxs⟩ := (documented.lists_iff hobject key IsEntry xs).mpr hxs
    exact Option.bind_eq_some_iff.mpr ⟨list, hlist, (foldlM_eq_some_iff hread _ _ _).mpr ⟨xs, hxs, h⟩⟩

/-- A loop over vertices. -/
theorem readVertices_iff (output : GraphView) {keep : PrimaryKey → Bool} {isTopic : Bool} {read : GraphView → J → Option GraphView}
    (hread : ∀ output entry view, read output entry = some view ↔ ∃ k, json.IsMember entry k ∧
      (if keep k then some (output ++ [⟨⟨k, isTopic⟩, []⟩]) else some output) = some view) :
    readList json queryResponseData key read output = some view ↔
      ∃ ks, json.Lists queryResponseData key json.IsMember ks ∧
        output ++ (ks.filter keep).map (fun k => ⟨⟨k, isTopic⟩, []⟩) = view := by
  rw [readList_iff documented hobject hread]
  simp only [GraphView.foldlM_push, Option.some.injEq]

/-- A loop over edges. -/
theorem readEdges_iff (ignored : QueryEdge → Bool) (isTopic : Bool) :
    readList json queryResponseData key (GraphView.readEdge json ignored isTopic) output = some view ↔
      ∃ edges, json.Lists queryResponseData key json.IsEdge edges ∧
        edges.foldlM (GraphView.addEdge ignored isTopic) output = some view :=
  readList_iff documented hobject (GraphView.readEdge_eq_some_iff ignored isTopic)

end Lists

variable {J : Type} {json : JsonLibrary J}

theorem readNode_eq_some_iff (output : GraphView) (node : J) (view : GraphView) :
    readNode json output node = some view ↔ ∃ k, json.IsMember node k ∧
      (if (fun _ => true) k then some (output ++ [⟨⟨k, false⟩, []⟩]) else some output) = some view := by
  simp [readNode, JsonLibrary.IsMember, Option.bind_eq_some_iff]

theorem readTopic_eq_some_iff (s : DataStore) (output : GraphView) (topic : J) (view : GraphView) :
    s.readTopic json output topic = some view ↔ ∃ k, json.IsMember topic k ∧
      (if (fun k => !s.checkTopicPrimaryIgnored k) k then some (output ++ [⟨⟨k, true⟩, []⟩])
        else some output) = some view := by
  simp only [readTopic, JsonLibrary.IsMember, Option.bind_eq_bind, Option.bind_eq_some_iff]
  refine exists_congr fun k => and_congr_right fun _ => ?_
  by_cases hk : s.checkTopicPrimaryIgnored k = true
  · simp [hk]
  · simp [hk]

variable {s : DataStore} {response queryResponseData : J} {data : QueryResponseData} {view : GraphView}

/-- What is described is read. -/
theorem readGraphView_of_describes (documented : json.Documented) (hrow : json.row response = some queryResponseData)
    (hdata : json.Describes queryResponseData data) (hview : s.getFullGraphView data = some view) :
    s.readGraphView json response = some view := by
  have hobject := json.row_isObject hrow
  obtain ⟨view₃, hview₃, hrest⟩ := Option.bind_eq_some_iff.mp hview
  obtain ⟨view₄, hview₄, hview₅⟩ := Option.bind_eq_some_iff.mp hrest
  have hnodes := (readVertices_iff documented hobject [] readNode_eq_some_iff).mpr
    ⟨data.active, hdata.active, rfl⟩
  have htopics := fun output => (readVertices_iff documented hobject output
    s.readTopic_eq_some_iff).mpr ⟨data.passive, hdata.passive, rfl⟩
  have hsub := (readEdges_iff documented hobject _ _).mpr ⟨data.sub, hdata.sub, hview₃⟩
  have hpub := (readEdges_iff documented hobject _ _).mpr ⟨data.pub, hdata.pub, hview₄⟩
  have hsend := (readEdges_iff documented hobject _ _).mpr ⟨data.send, hdata.send, hview₅⟩
  unfold readGraphView readSub readPub readSend
  simp only [Option.bind_eq_bind]
  rw [hrow, Option.bind_some, hnodes, Option.bind_some, htopics, Option.bind_some, List.filter_true, List.nil_append]
  show Option.bind (readList _ _ _ _ (s.vertices data)) _ = _
  rw [hsub, Option.bind_some, hpub, Option.bind_some, hsend]

/-- What is read was described. -/
theorem describes_of_readGraphView (documented : json.Documented) (h : s.readGraphView json response = some view) :
    ∃ queryResponseData data, json.row response = some queryResponseData ∧
      json.Describes queryResponseData data ∧ s.getFullGraphView data = some view := by
  obtain ⟨queryResponseData, hrow, hrest⟩ := Option.bind_eq_some_iff.mp h
  have hobject := json.row_isObject hrow
  obtain ⟨view₁, hview₁, hrest₁⟩ := Option.bind_eq_some_iff.mp hrest
  obtain ⟨view₂, hview₂, hrest₂⟩ := Option.bind_eq_some_iff.mp hrest₁
  obtain ⟨view₃, hview₃, hrest₃⟩ := Option.bind_eq_some_iff.mp hrest₂
  obtain ⟨view₄, hview₄, hview₅⟩ := Option.bind_eq_some_iff.mp hrest₃
  obtain ⟨active, hactive, rfl⟩ := (readVertices_iff documented hobject _ readNode_eq_some_iff).mp hview₁
  obtain ⟨passive, hpassive, rfl⟩ := (readVertices_iff documented hobject _ s.readTopic_eq_some_iff).mp hview₂
  obtain ⟨sub, hsub, hview₃⟩ := (readEdges_iff documented hobject _ _).mp hview₃
  obtain ⟨pub, hpub, hview₄⟩ := (readEdges_iff documented hobject _ _).mp hview₄
  obtain ⟨send, hsend, hview₅⟩ := (readEdges_iff documented hobject _ _).mp hview₅
  refine ⟨queryResponseData, ⟨active, passive, sub, pub, send⟩, hrow,
    ⟨hactive, hpassive, hsub, hpub, hsend⟩, ?_⟩
  rw [List.filter_true] at hview₃
  exact Option.bind_eq_some_iff.mpr ⟨view₃, hview₃, Option.bind_eq_some_iff.mpr ⟨view₄, hview₄, hview₅⟩⟩

end DataStore

/-- From any parsed response, the loops make a graph exactly when the row is there and its entries can be
    read; and it is the graph of what they say. -/
theorem graph_view_iff_described {J : Type} (json : JsonLibrary J) (documented : json.Documented) (s : DataStore)
    (response : J) (view : GraphView) :
    s.readGraphView json response = some view ↔ ∃ queryResponseData data,
      json.row response = some queryResponseData ∧ json.Describes queryResponseData data ∧
      s.getFullGraphView data = some view := by
  constructor
  · exact DataStore.describes_of_readGraphView documented
  · rintro ⟨queryResponseData, data, hrow, hdata, hview⟩
    exact DataStore.readGraphView_of_describes documented hrow hdata hview

/-! An example of such a library, and a response. -/

inductive Json where
  | null
  | string (value : String)
  | array (elements : List Json)
  | object (members : List (String × Json))

namespace Json

def get : Json → String → Option Json
  | object members, key => (members.find? fun member => member.1 == key).map Prod.snd
  | _, _ => none

def atIndex : Json → Nat → Option Json
  | array elements, idx => elements[idx]?
  | _, _ => none

def entry (value : Json) (key : String) : Option Json :=
  match value with
  | object _ => some ((value.get key).getD null)
  | _ => none

def getString : Json → Option String
  | string value => some value
  | _ => none

def isNull : Json → Bool
  | null => true
  | _ => false

def isObject : Json → Bool
  | object _ => true
  | _ => false

def items : Json → List Json
  | null => []
  | string value => [string value]
  | array elements => elements
  | object members => members.map Prod.snd

def member (primaryKey : PrimaryKey) : Json := object [("primaryKey", string primaryKey)]

def edge (fromPrimaryKey toPrimaryKey : PrimaryKey) : Json :=
  object [("from", member fromPrimaryKey), ("rel", object []), ("to", member toPrimaryKey)]

/-- The entry of a query that matched no edge. -/
def noEdge : Json := object [("from", null), ("rel", null), ("to", null)]

end Json

/-- Two nodes, of which `a` publishes the topic `t` and sends to `b`, which subscribes to it. The topic `r`
    is ignored, and one entry is without an edge. -/
def exampleRow : Json :=
  .object [("active", .array [.member "a", .member "b"]), ("passive", .array [.member "r", .member "t"]),
    ("pub", .array [.edge "a" "t", .edge "b" "r"]), ("send", .array [.edge "a" "b", .noEdge]),
    ("sub", .array [.edge "t" "b", .edge "r" "a"])]

def exampleGraphResponse : Json :=
  .object [("results", .array [.object [("data", .array [.object [("row", .array [exampleRow])]])]])]

def memberText (primaryKey : PrimaryKey) : String := "\x7b\"primaryKey\":\"" ++ primaryKey ++ "\"\x7d"

def edgeText (fromPrimaryKey toPrimaryKey : PrimaryKey) : String :=
  "\x7b\"from\":" ++ memberText fromPrimaryKey ++ ",\"rel\":\x7b\x7d,\"to\":" ++ memberText toPrimaryKey ++ "\x7d"

/-- Its text, in three packages. -/
def exampleLines : List Package :=
  [⟨.TEXTUAL, 1, 3, "\x7b\"results\":[\x7b\"data\":[\x7b\"row\":[\x7b\"active\":[" ++ memberText "a" ++ ","⟩,
    ⟨.TEXTUAL, 2, 3, memberText "b" ++ "],\"passive\":[" ++ memberText "r" ++ "," ++ memberText "t" ++
      "],\"pub\":[" ++ edgeText "a" "t" ++ "," ++ edgeText "b" "r" ++ "],\"send\":[" ++ edgeText "a" "b" ++
      ",\x7b\"from\":null,\"rel\":null,"⟩,
    ⟨.TEXTUAL, 3, 3, "\"to\":null\x7d],\"sub\":[" ++ edgeText "t" "b" ++ "," ++ edgeText "r" "a" ++ "]\x7d]\x7d]\x7d]\x7d"⟩]

/-- The calls as they answer on values like these; the parser knows the text of the example. -/
def exampleJson : JsonLibrary Json where
  parse := fun text =>
    if text = String.join (exampleLines.map Package.line) then some exampleGraphResponse else none
  atKey := Json.get
  atIndex := Json.atIndex
  get := Json.get
  entry := Json.entry
  getString := Json.getString
  isNull := Json.isNull
  isObject := Json.isObject
  items := Json.items

theorem exampleJson_documented : exampleJson.Documented where
  entry_present := fun object key value hobject hget => by
    cases object with
    | object members =>
      have hget : Json.get (.object members) key = some value := hget
      show some ((Json.get (.object members) key).getD .null) = some value
      rw [hget]
      rfl
    | _ => cases hobject
  entry_missing := fun object key hobject hget => by
    cases object with
    | object members =>
      have hget : Json.get (.object members) key = none := hget
      refine ⟨.null, ?_, rfl⟩
      show some ((Json.get (.object members) key).getD .null) = some .null
      rw [hget]
      rfl
    | _ => cases hobject

theorem exampleJson_parse (text : String) (h : text = String.join (exampleLines.map Package.line)) :
    exampleJson.parse text = some exampleGraphResponse := if_pos h

def exampleData : QueryResponseData :=
  ⟨["a", "b"], ["r", "t"], [some ⟨"t", "b"⟩, some ⟨"r", "a"⟩], [some ⟨"a", "t"⟩, some ⟨"b", "r"⟩],
    [some ⟨"a", "b"⟩, none]⟩

theorem exampleData_wellFormed : exampleData.WellFormed where
  distinct := by decide
  sub := fun edge hedge => by
    simp only [exampleData, List.mem_cons, Option.some.injEq, List.not_mem_nil, or_false] at hedge
    rcases hedge with rfl | rfl <;> decide
  pub := fun edge hedge => by
    simp only [exampleData, List.mem_cons, Option.some.injEq, List.not_mem_nil, or_false] at hedge
    rcases hedge with rfl | rfl <;> decide
  send := fun edge hedge => by
    simp only [exampleData, List.mem_cons, Option.some.injEq, List.not_mem_nil, or_false, reduceCtorEq] at hedge
    subst hedge
    decide

theorem exampleRow_describes : exampleJson.Describes exampleRow exampleData where
  active := .inl ⟨_, rfl, .cons rfl (.cons rfl .nil)⟩
  passive := .inl ⟨_, rfl, .cons rfl (.cons rfl .nil)⟩
  sub := .inl ⟨_, rfl, .cons (.edge _ _ _ _ rfl rfl rfl rfl rfl rfl)
    (.cons (.edge _ _ _ _ rfl rfl rfl rfl rfl rfl) .nil)⟩
  pub := .inl ⟨_, rfl, .cons (.edge _ _ _ _ rfl rfl rfl rfl rfl rfl)
    (.cons (.edge _ _ _ _ rfl rfl rfl rfl rfl rfl) .nil)⟩
  send := .inl ⟨_, rfl, .cons (.edge _ _ _ _ rfl rfl rfl rfl rfl rfl) (.cons (.absent _ rfl rfl) .nil)⟩

/-- The edges of the ignored topic are left out with it. -/
def exampleView : GraphView :=
  [⟨⟨"a", false⟩, [⟨"t", true⟩, ⟨"b", false⟩]⟩, ⟨⟨"b", false⟩, []⟩, ⟨⟨"t", true⟩, [⟨"b", false⟩]⟩]

theorem graph_view_iff_described_example :
    (DataStore.new "e" "r").readGraphView exampleJson exampleGraphResponse = some exampleView :=
  (graph_view_iff_described exampleJson exampleJson_documented (.new "e" "r") exampleGraphResponse exampleView).mpr
    ⟨exampleRow, exampleData, rfl, exampleRow_describes, by decide +kernel⟩

/-! Packages that carry a response. -/

/-- The rest of a complete response is put together. -/
theorem receive_complete {previousNumber : Nat} {received : List Package} (hne : received ≠ [])
    (htextual : ∀ p ∈ received, p.type = .TEXTUAL)
    (hnumbers : received.map Package.number = List.range' (previousNumber + 1) received.length)
    (htotals : ∀ p ∈ received, p.total = previousNumber + received.length) (before : String) :
    receive previousNumber before received = .over ((received.map Package.line).foldl (· ++ ·) before) := by
  induction received generalizing previousNumber before with
  | nil => exact absurd rfl hne
  | cons response responses ih =>
    rw [List.map_cons, List.length_cons, List.range'_succ] at hnumbers
    obtain ⟨hnumber, hrest⟩ := List.cons.inj hnumbers
    have htotal := htotals response List.mem_cons_self
    rw [List.length_cons] at htotal
    rw [receive, if_pos ⟨htextual response List.mem_cons_self, by omega⟩]
    -- the loop ends with the package whose number is the total
    cases responses with
    | nil =>
      rw [List.length_nil] at htotal
      rw [if_neg (by omega)]
      rfl
    | cons next responses =>
      have hmore : response.number < response.total := by
        rw [List.length_cons] at htotal
        omega
      rw [if_pos hmore, hnumber]
      apply ih (List.cons_ne_nil next responses) (fun p hp => htextual p (List.mem_cons_of_mem response hp)) hrest
      intro p hp
      have hp := htotals p (List.mem_cons_of_mem response hp)
      rw [List.length_cons] at hp
      omega

theorem reassemble_complete {received : List Package} (hne : received ≠ [])
    (htextual : ∀ p ∈ received, p.type = .TEXTUAL) (hcomplete : Package.Complete received) :
    reassemble received = .over (String.join (received.map Package.line)) := by
  apply receive_complete hne htextual hcomplete.numbers
  intro p hp
  rw [Nat.zero_add]
  exact hcomplete.totals p hp

/-- However the text of a well-formed response is split into packages, the graph has a vertex for every
    node and every topic that is not ignored, no two with one key, and no connection leaves it. -/
theorem graph_view_of_packages {J : Type} (json : JsonLibrary J) (documented : json.Documented) (s : DataStore)
    (received : List Package) (response queryResponseData : J) (data : QueryResponseData) (nonempty : received ≠ [])
    (textual : ∀ p ∈ received, p.type = .TEXTUAL) (complete : Package.Complete received)
    (parsed : json.parse (String.join (received.map Package.line)) = some response)
    (row : json.row response = some queryResponseData) (described : json.Describes queryResponseData data)
    (wellFormed : data.WellFormed) :
    ∃ view, s.receiveGraphView json received = some view ∧ s.getFullGraphView data = some view ∧
      view.map MemberConnections.member = data.active.map (⟨·, false⟩) ++
        (data.passive.filter fun primaryKey => !s.checkTopicPrimaryIgnored primaryKey).map (⟨·, true⟩) ∧
      view.keys.Nodup ∧ ∀ v ∈ view, ∀ c ∈ v.connections, c.mPrimaryKey ∈ view.keys := by
  have hview := wellFormed.getFullGraphView_eq s
  refine ⟨_, ?_, hview, ?_, wellFormed.closed hview⟩
  · unfold DataStore.receiveGraphView
    rw [reassemble_complete nonempty textual complete]
    show (json.parse _).bind _ = _
    rw [parsed]
    exact DataStore.readGraphView_of_describes documented row described hview
  · rw [GraphView.members_extend, DataStore.members_vertices]

/-- The three packages of the example. -/
theorem graph_view_of_packages_three :
    (DataStore.new "e" "r").receiveGraphView exampleJson exampleLines = some exampleView ∧
      exampleView.map MemberConnections.member = [⟨"a", false⟩, ⟨"b", false⟩, ⟨"t", true⟩] := by
  obtain ⟨view, hview, hdata, hmembers, _⟩ := graph_view_of_packages exampleJson exampleJson_documented (.new "e" "r")
    exampleLines exampleGraphResponse exampleRow exampleData (by simp [exampleLines]) (by simp [exampleLines])
    ⟨rfl, by simp [exampleLines]⟩ (exampleJson_parse _ rfl) rfl exampleRow_describes
    exampleData_wellFormed
  have hexample : (DataStore.new "e" "r").getFullGraphView exampleData = some exampleView := by decide +kernel
  rw [hexample] at hdata
  cases hdata
  exact ⟨hview, hmembers⟩

end StreamFdl
