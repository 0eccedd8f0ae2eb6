import Mathlib.Data.List.Nodup
import Mathlib.Data.List.Perm.Subperm
import StreamFdl.Base.Runs

/- `PluginManager`: the libraries of the plugin directory, what is called in them,
   and what the destructor gives back. (It is not part of the build yet.)

   What `dlopen`, `dlsym` and the plugins answer is an input of each call. Nothing
   is asked of the handles: the real `dlopen` gives the handle of a library that is
   open again and counts how often it did, so that a handle is to be closed as often
   as it was given. The order of iteration of an `unordered_map` is not specified;
   `rehash` may change it at any time.

   A handle is lost when a symbol is missing, and when a name is loaded that is
   loaded already. The plugin of that name is then taken for one that is not
   initialised, also where its library is the one that was initialised before:
   the next `initialize` calls it a second time (`reload_initializes_twice`). The
   test of `skipExisting` is the wrong way round, so with its default only names
   that are loaded already are loaded: a manager that is used with the default
   stays empty (`load_default_nothing`). -/
namespace StreamFdl
open Runs

abbrev Handle := Nat

structure Plugin where
  handle : Handle
  initialized : Bool
  deriving DecidableEq, Repr

/-- What the dynamic loader and the plugins are called for. -/
inductive LibraryCall where
  | dlopen (handle : Handle)
  | initializePlugin (handle : Handle) (success : Bool)
  | deinitializePlugin (handle : Handle)
  | dlclose (handle : Handle)
  deriving DecidableEq, Repr

inductive DynamicLibraryError where
  /-- With the text of `dlerror`. -/
  | dlerror
  | message (errorMessage : String)
  deriving DecidableEq, Repr

/-- A file, and what the loader answers for it. -/
structure DirectoryEntry where
  isRegularFile : Bool
  stem : String
  extension : String
  /-- What `dlopen` returns; none stands for the null pointer. -/
  dlopen : Option Handle
  hasInitialize : Bool
  hasExecute : Bool
  hasDeinitialize : Bool

/-- `dlsym` finds the three functions. -/
def DirectoryEntry.complete (entry : DirectoryEntry) : Bool :=
  entry.hasInitialize && entry.hasExecute && entry.hasDeinitialize

abbrev Plugins := List (String × Plugin)

structure PluginManager where
  mLoadedPlugins : Plugins
  /-- The calls so far. -/
  calls : List LibraryCall

/-- The handles that `dlopen` gave. -/
def openedHandles (calls : List LibraryCall) : List Handle :=
  calls.filterMap fun | .dlopen handle => some handle | _ => none

/-- The handles that `dlclose` was called with. -/
def closedHandles (calls : List LibraryCall) : List Handle :=
  calls.filterMap fun | .dlclose handle => some handle | _ => none

namespace Plugins

def handles (plugins : Plugins) : List Handle := plugins.map fun e => e.2.handle

def names (plugins : Plugins) : List String := plugins.map Prod.fst

def insertOrAssign (pluginName : String) (plugin : Plugin) : Plugins → Plugins
  | [] => [(pluginName, plugin)]
  | e :: rest => if e.1 = pluginName then (pluginName, plugin) :: rest else e :: insertOrAssign pluginName plugin rest

def find (plugins : Plugins) (pluginName : String) : Option Plugin :=
  (List.find? (fun e => decide (e.1 = pluginName)) plugins).map Prod.snd

end Plugins

/-- What is done with a plugin: the plugin after it, the calls, and what is thrown. -/
abbrev PluginAction := String → Plugin → Plugin × List LibraryCall × Option DynamicLibraryError

namespace Plugins

/-- The loop over all plugins; it ends where something is thrown. -/
def forEach (action : PluginAction) : Plugins → Plugins × List LibraryCall × Option DynamicLibraryError
  | [] => ([], [], none)
  | (pluginName, plugin) :: rest =>
    match action pluginName plugin with
    | (plugin, calls, some error) => ((pluginName, plugin) :: rest, calls, some error)
    | (plugin, calls, none) =>
      ((pluginName, plugin) :: (forEach action rest).1, calls ++ (forEach action rest).2.1, (forEach action rest).2.2)

/-- The action on the plugin of this name, if there is one. -/
def forNamed (action : PluginAction) (pluginName : String) :
    Plugins → Option (Plugins × List LibraryCall × Option DynamicLibraryError)
  | [] => none
  | e :: rest =>
    if e.1 = pluginName then
      some ((e.1, (action e.1 e.2).1) :: rest, (action e.1 e.2).2)
    else (forNamed action pluginName rest).map fun r => (e :: r.1, r.2)

end Plugins

/-- The body of the loop in `initialize`. -/
def initializeAction (skipInitialized : Bool) (succeeds : Handle → Bool) : PluginAction := fun pluginName plugin =>
  if skipInitialized && plugin.initialized then (plugin, [], none)
  else if succeeds plugin.handle then
    ({ plugin with initialized := true }, [.initializePlugin plugin.handle true], none)
  else (plugin, [.initializePlugin plugin.handle false], some (.message ("Unable to initialize plugin: " ++ pluginName)))

/-- The body of the loop in `deinitialize`. -/
def deinitializeAction (skipDeinitialized : Bool) : PluginAction := fun _ plugin =>
  if skipDeinitialized && !plugin.initialized then (plugin, [], none)
  else ({ plugin with initialized := false }, [.deinitializePlugin plugin.handle], none)

namespace PluginManager

def new : PluginManager := ⟨[], []⟩

/-- An iteration of the loop in `load`. -/
def loadEntry (pm : PluginManager) (skipExisting : Bool) (entry : DirectoryEntry) :
    PluginManager × Option DynamicLibraryError :=
  if !entry.isRegularFile || entry.extension != ".so" then (pm, none)
  else if skipExisting && (pm.mLoadedPlugins.find entry.stem).isNone then (pm, none)
  else match entry.dlopen with
    | none => (pm, some .dlerror)
    | some libraryHandle =>
      let opened : PluginManager := { pm with calls := pm.calls ++ [.dlopen libraryHandle] }
      if !entry.hasInitialize then (opened, some .dlerror)
      else if !entry.hasExecute then (opened, some .dlerror)
      else if !entry.hasDeinitialize then (opened, some .dlerror)
      else ({ opened with
        mLoadedPlugins := pm.mLoadedPlugins.insertOrAssign entry.stem ⟨libraryHandle, false⟩ }, none)

def load (pm : PluginManager) (skipExisting : Bool) : List DirectoryEntry → PluginManager × Option DynamicLibraryError
  | [] => (pm, none)
  | entry :: rest =>
    match pm.loadEntry skipExisting entry with
    | (pm, none) => load pm skipExisting rest
    | (pm, some error) => (pm, some error)

def getLoaded (pm : PluginManager) : List String := pm.mLoadedPlugins.names

/-- An action on every plugin. -/
def onAll (pm : PluginManager) (action : PluginAction) : PluginManager × Option DynamicLibraryError :=
  let r := pm.mLoadedPlugins.forEach action
  (⟨r.1, pm.calls ++ r.2.1⟩, r.2.2)

/-- An action on the plugin that `getPlugin` gives. -/
def onNamed (pm : PluginManager) (action : PluginAction) (pluginName : String) :
    PluginManager × Option DynamicLibraryError :=
  match pm.mLoadedPlugins.forNamed action pluginName with
  | none => (pm, some (.message ("Unknown plugin: " ++ pluginName)))
  | some r => (⟨r.1, pm.calls ++ r.2.1⟩, r.2.2)

def initializeAll (pm : PluginManager) (skipInitialized : Bool) (succeeds : Handle → Bool) :
    PluginManager × Option DynamicLibraryError := pm.onAll (initializeAction skipInitialized succeeds)

def initializeNamed (pm : PluginManager) (pluginName : String) (skipInitialized : Bool) (succeeds : Handle → Bool) :
    PluginManager × Option DynamicLibraryError := pm.onNamed (initializeAction skipInitialized succeeds) pluginName

def deinitializeAll (pm : PluginManager) (skipDeinitialized : Bool) : PluginManager × Option DynamicLibraryError :=
  pm.onAll (deinitializeAction skipDeinitialized)

def deinitializeNamed (pm : PluginManager) (pluginName : String) (skipDeinitialized : Bool) :
    PluginManager × Option DynamicLibraryError := pm.onNamed (deinitializeAction skipDeinitialized) pluginName

/-- What the destructor does with a plugin. -/
def release (plugin : Plugin) : List LibraryCall :=
  (if plugin.initialized then [.deinitializePlugin plugin.handle] else []) ++ [.dlclose plugin.handle]

/-- The calls of the whole life, with those of the destructor. -/
def destroy (pm : PluginManager) : List LibraryCall := pm.calls ++ pm.mLoadedPlugins.flatMap fun e => release e.2

end PluginManager

inductive PluginOp where
  | load (skipExisting : Bool) (directory : List DirectoryEntry)
  | rehash (plugins : Plugins)
  | initializeAll (skipInitialized : Bool) (succeeds : Handle → Bool)
  | initializeNamed (pluginName : String) (skipInitialized : Bool) (succeeds : Handle → Bool)
  | deinitializeAll (skipDeinitialized : Bool)
  | deinitializeNamed (pluginName : String) (skipDeinitialized : Bool)

namespace PluginManager

/-- What is thrown goes to the caller, and the manager stays as it is then. -/
def step (pm : PluginManager) : PluginOp → Option PluginManager
  | .load skipExisting directory => some (pm.load skipExisting directory).1
  | .rehash plugins => if plugins.Perm pm.mLoadedPlugins then some { pm with mLoadedPlugins := plugins } else none
  | .initializeAll skipInitialized succeeds => some (pm.initializeAll skipInitialized succeeds).1
  | .initializeNamed pluginName skipInitialized succeeds =>
    some (pm.initializeNamed pluginName skipInitialized succeeds).1
  | .deinitializeAll skipDeinitialized => some (pm.deinitializeAll skipDeinitialized).1
  | .deinitializeNamed pluginName skipDeinitialized => some (pm.deinitializeNamed pluginName skipDeinitialized).1

end PluginManager

/-! ### Passes over the plugins -/

namespace LibraryCall

def handle : LibraryCall → Handle
  | .dlopen handle => handle
  | .initializePlugin handle _ => handle
  | .deinitializePlugin handle => handle
  | .dlclose handle => handle

/-- A call into the plugin. -/
def isPluginCall : LibraryCall → Bool
  | .initializePlugin _ _ => true
  | .deinitializePlugin _ => true
  | _ => false

end LibraryCall

/-- The action calls its own plugin only, and leaves it its handle. -/
structure PluginAction.Own (action : PluginAction) : Prop where
  handle : ∀ pluginName plugin, (action pluginName plugin).1.handle = plugin.handle
  calls : ∀ pluginName plugin, ∀ c ∈ (action pluginName plugin).2.1, c.handle = plugin.handle ∧ c.isPluginCall = true

/-- What an action on some of the plugins makes of them, and its calls. -/
inductive Passed (action : PluginAction) : Plugins → Plugins → List LibraryCall → Prop where
  | stop (plugins : Plugins) : Passed action plugins plugins []
  | skip (e : String × Plugin) {rest rest' : Plugins} {calls : List LibraryCall} :
      Passed action rest rest' calls → Passed action (e :: rest) (e :: rest') calls
  | act (pluginName : String) (plugin : Plugin) {rest rest' : Plugins} {calls : List LibraryCall} :
      Passed action rest rest' calls →
        Passed action ((pluginName, plugin) :: rest) ((pluginName, (action pluginName plugin).1) :: rest')
          ((action pluginName plugin).2.1 ++ calls)

theorem initializeAction_own (skipInitialized : Bool) (succeeds : Handle → Bool) :
    (initializeAction skipInitialized succeeds).Own where
  handle pluginName plugin := by
    simp only [initializeAction]
    split
    · rfl
    · split <;> rfl
  calls pluginName plugin := by
    simp only [initializeAction]
    split
    · exact fun c hc => by cases hc
    · split <;> simp [LibraryCall.handle, LibraryCall.isPluginCall]

theorem deinitializeAction_own (skipDeinitialized : Bool) : (deinitializeAction skipDeinitialized).Own where
  handle pluginName plugin := by
    simp only [deinitializeAction]
    split <;> rfl
  calls pluginName plugin := by
    simp only [deinitializeAction]
    split
    · exact fun c hc => by cases hc
    · simp [LibraryCall.handle, LibraryCall.isPluginCall]

namespace Passed

variable {action : PluginAction} {plugins plugins' : Plugins} {calls : List LibraryCall}

theorem forEach (action : PluginAction) (plugins : Plugins) :
    Passed action plugins (plugins.forEach action).1 (plugins.forEach action).2.1 := by
  induction plugins with
  | nil => exact .stop []
  | cons e rest ih =>
    obtain ⟨pluginName, plugin⟩ := e
    have hthrows : Passed action _ _ _ := .act pluginName plugin (.stop rest)
    have hgoes := Passed.act pluginName plugin ih
    rw [List.append_nil] at hthrows
    simp only [Plugins.forEach]
    split
    · next hr =>
      rw [hr] at hthrows
      exact hthrows
    · next hr =>
      rw [hr] at hgoes
      exact hgoes

theorem forNamed {pluginName : String} {r : Plugins × List LibraryCall × Option DynamicLibraryError}
    (h : plugins.forNamed action pluginName = some r) : Passed action plugins r.1 r.2.1 := by
  induction plugins generalizing r with
  | nil => cases h
  | cons e rest ih =>
    simp only [Plugins.forNamed] at h
    split at h
    · cases h
      have hact : Passed action _ _ _ := .act e.1 e.2 (.stop rest)
      rw [List.append_nil] at hact
      exact hact
    · obtain ⟨r', hr', rfl⟩ := Option.map_eq_some_iff.mp h
      exact .skip e (ih hr')

theorem handles (h : Passed action plugins plugins' calls) (hown : action.Own) :
    plugins'.handles = plugins.handles := by
  induction h with
  | stop plugins => rfl
  | skip e _ ih => exact congrArg (e.2.handle :: ·) ih
  | act pluginName plugin _ ih =>
    simp only [Plugins.handles, List.map_cons, hown.handle] at ih ⊢
    rw [ih]

theorem names (h : Passed action plugins plugins' calls) : plugins'.names = plugins.names := by
  induction h with
  | stop plugins => rfl
  | skip e _ ih => exact congrArg (e.1 :: ·) ih
  | act pluginName plugin _ ih => exact congrArg (pluginName :: ·) ih

theorem calls_own (h : Passed action plugins plugins' calls) (hown : action.Own) :
    ∀ c ∈ calls, c.handle ∈ plugins.handles ∧ c.isPluginCall = true := by
  induction h with
  | stop plugins => exact fun c hc => by cases hc
  | skip e _ ih => exact fun c hc => ⟨List.mem_cons_of_mem _ (ih c hc).1, (ih c hc).2⟩
  | act pluginName plugin _ ih =>
    intro c hc
    rcases List.mem_append.mp hc with hc | hc
    · obtain ⟨hhandle, hcall⟩ := hown.calls pluginName plugin c hc
      exact ⟨hhandle ▸ List.mem_cons_self, hcall⟩
    · exact ⟨List.mem_cons_of_mem _ (ih c hc).1, (ih c hc).2⟩

end Passed

namespace PluginManager

variable {pm : PluginManager} {action : PluginAction}

/-- An operation on loaded plugins is a pass. -/
theorem onAll_passed (pm : PluginManager) (action : PluginAction) : ∃ calls,
    (pm.onAll action).1.calls = pm.calls ++ calls ∧
      Passed action pm.mLoadedPlugins (pm.onAll action).1.mLoadedPlugins calls :=
  ⟨_, rfl, .forEach action pm.mLoadedPlugins⟩

theorem onNamed_passed (pm : PluginManager) (action : PluginAction) (pluginName : String) : ∃ calls,
    (pm.onNamed action pluginName).1.calls = pm.calls ++ calls ∧
      Passed action pm.mLoadedPlugins (pm.onNamed action pluginName).1.mLoadedPlugins calls := by
  unfold onNamed
  split
  · exact ⟨[], (List.append_nil _).symm, .stop _⟩
  · next r hr => exact ⟨r.2.1, rfl, .forNamed hr⟩

/-! ### Loading -/

/-- The handle that `dlopen` gives for the entry. -/
def opensEntry (pm : PluginManager) (skipExisting : Bool) (entry : DirectoryEntry) : Option Handle :=
  if entry.isRegularFile && entry.extension == ".so" && !(skipExisting && (pm.mLoadedPlugins.find entry.stem).isNone)
  then entry.dlopen else none

/-- The manager after a `dlopen`. -/
def afterOpen (pm : PluginManager) (handle : Handle) : PluginManager :=
  { pm with calls := pm.calls ++ [.dlopen handle] }

/-- The manager after an entry was stored. -/
def stored (pm : PluginManager) (pluginName : String) (handle : Handle) : PluginManager :=
  { pm.afterOpen handle with mLoadedPlugins := pm.mLoadedPlugins.insertOrAssign pluginName ⟨handle, false⟩ }

/-- What an iteration of `load` does. -/
theorem loadEntry_cases (pm : PluginManager) (skipExisting : Bool) (entry : DirectoryEntry) :
    (pm.opensEntry skipExisting entry = none ∧ (pm.loadEntry skipExisting entry).1 = pm) ∨
    ∃ handle, pm.opensEntry skipExisting entry = some handle ∧
      (entry.complete = false ∧ pm.loadEntry skipExisting entry = (pm.afterOpen handle, some .dlerror) ∨
        entry.complete = true ∧ pm.loadEntry skipExisting entry = (pm.stored entry.stem handle, none)) := by
  simp only [loadEntry, DirectoryEntry.complete]
  split
  · next hfile => exact .inl ⟨by rw [opensEntry, if_neg (by grind)], rfl⟩
  · next hfile =>
    split
    · next hskip => exact .inl ⟨by rw [opensEntry, if_neg (by simp [hskip])], rfl⟩
    · next hskip =>
      have hopens : pm.opensEntry skipExisting entry = entry.dlopen := by rw [opensEntry, if_pos (by grind)]
      rw [hopens]
      split
      · next hopen => exact .inl ⟨hopen, rfl⟩
      -- from here on the library is open, and each missing symbol leaves it so
      · next handle hopen =>
        refine .inr ⟨handle, hopen, ?_⟩
        split
        · next hmissing => exact .inl ⟨by grind, rfl⟩
        · next hinitialize =>
          split
          · next hmissing => exact .inl ⟨by grind, rfl⟩
          · next hexecute =>
            split
            · next hmissing => exact .inl ⟨by grind, rfl⟩
            · next hdeinitialize => exact .inr ⟨by grind, rfl⟩

/-- Every entry that `load` comes to has the property. -/
def everyEntry (p : PluginManager → Bool → DirectoryEntry → Bool) (pm : PluginManager) (skipExisting : Bool) :
    List DirectoryEntry → Bool
  | [] => true
  | entry :: rest =>
    p pm skipExisting entry &&
      ((pm.loadEntry skipExisting entry).2.isSome ||
        everyEntry p (pm.loadEntry skipExisting entry).1 skipExisting rest)

/-- The operation loads no other entries. -/
def LoadsOnly (p : PluginManager → Bool → DirectoryEntry → Bool) (pm : PluginManager) : PluginOp → Prop
  | .load skipExisting directory => pm.everyEntry p skipExisting directory = true
  | _ => True

instance (p : PluginManager → Bool → DirectoryEntry → Bool) (pm : PluginManager) : DecidablePred (pm.LoadsOnly p)
  | .load _ _ => inferInstanceAs (Decidable (_ = true))
  | .rehash _ => isTrue trivial
  | .initializeAll _ _ => isTrue trivial
  | .initializeNamed _ _ _ => isTrue trivial
  | .deinitializeAll _ => isTrue trivial
  | .deinitializeNamed _ _ => isTrue trivial

end PluginManager

/-! ### The handles -/

theorem openedHandles_append (calls calls' : List LibraryCall) :
    openedHandles (calls ++ calls') = openedHandles calls ++ openedHandles calls' := List.filterMap_append

theorem closedHandles_append (calls calls' : List LibraryCall) :
    closedHandles (calls ++ calls') = closedHandles calls ++ closedHandles calls' := List.filterMap_append

/-- Calls into plugins open and close nothing. -/
theorem openedHandles_plugin {calls : List LibraryCall} (h : ∀ c ∈ calls, c.isPluginCall = true) :
    openedHandles calls = [] ∧ closedHandles calls = [] := by
  refine ⟨List.filterMap_eq_nil_iff.mpr fun c hc => ?_, List.filterMap_eq_nil_iff.mpr fun c hc => ?_⟩ <;>
  · have hcall := h c hc
    cases c <;> simp_all [LibraryCall.isPluginCall]

namespace Plugins

theorem find_cons (e : String × Plugin) (rest : Plugins) (pluginName : String) :
    find (e :: rest) pluginName = if e.1 = pluginName then some e.2 else rest.find pluginName := by
  by_cases hname : e.1 = pluginName <;> simp [find, hname]

theorem insertOrAssign_subperm (pluginName : String) (plugin : Plugin) (plugins : Plugins) :
    (plugins.insertOrAssign pluginName plugin).handles.Subperm (plugin.handle :: plugins.handles) := by
  induction plugins with
  | nil => exact List.Subperm.refl _
  | cons e rest ih =>
    simp only [insertOrAssign]
    split
    · exact (List.subperm_cons _).mpr (List.sublist_cons_self _ _).subperm
    · have hswap : (e.2.handle :: plugin.handle :: handles rest).Perm (plugin.handle :: e.2.handle :: handles rest) :=
        List.Perm.swap ..
      exact ((List.subperm_cons e.2.handle).mpr ih).trans hswap.subperm

/-- What was stored under the name goes. -/
theorem insertOrAssign_perm (pluginName : String) (plugin : Plugin) {plugins : Plugins} (hnames : plugins.names.Nodup) :
    (plugins.insertOrAssign pluginName plugin).Perm
      ((pluginName, plugin) :: plugins.filter fun e => decide (e.1 ≠ pluginName)) := by
  induction plugins with
  | nil => exact .refl _
  | cons e rest ih =>
    obtain ⟨hfirst, hnames⟩ := List.nodup_cons.mp hnames
    simp only [insertOrAssign]
    split
    · next hname =>
      have hrest : rest.filter (fun e => decide (e.1 ≠ pluginName)) = rest := by
        refine List.filter_eq_self.mpr fun e' he' => decide_eq_true fun hname' => hfirst ?_
        rw [hname, ← hname']
        exact List.mem_map_of_mem he'
      rw [List.filter_cons_of_neg (by simp [hname]), hrest]
    · next hname =>
      rw [List.filter_cons_of_pos (by simpa using hname)]
      exact ((ih hnames).cons e).trans (List.Perm.swap ..)

theorem insertOrAssign_length (pluginName : String) (plugin : Plugin) (plugins : Plugins) :
    (plugins.insertOrAssign pluginName plugin).handles.length =
      plugins.handles.length + if (plugins.find pluginName).isNone then 1 else 0 := by
  induction plugins with
  | nil => rfl
  | cons e rest ih =>
    rw [find_cons]
    by_cases hname : e.1 = pluginName
    · simp [insertOrAssign, handles, hname]
    · simp only [insertOrAssign, if_neg hname, handles, List.map_cons, List.length_cons] at ih ⊢
      omega

end Plugins

namespace PluginManager

variable {pm pm' : PluginManager}

/-- The plugins hold handles that were opened, none of them more often than it was, and none is closed. -/
structure Accounted (pm : PluginManager) : Prop where
  opened : pm.mLoadedPlugins.handles.Subperm (openedHandles pm.calls)
  unclosed : closedHandles pm.calls = []

/-- How many handles are lost. -/
def lost (pm : PluginManager) : Nat := (openedHandles pm.calls).length - pm.mLoadedPlugins.handles.length

theorem new_accounted : new.Accounted := ⟨List.Subperm.refl [], rfl⟩

theorem openedHandles_afterOpen (pm : PluginManager) (handle : Handle) :
    openedHandles (pm.afterOpen handle).calls = openedHandles pm.calls ++ [handle] :=
  openedHandles_append pm.calls [.dlopen handle]

theorem Accounted.afterOpen (h : pm.Accounted) (handle : Handle) :
    (pm.afterOpen handle).Accounted ∧ (pm.afterOpen handle).lost = pm.lost + 1 := by
  have hopened := openedHandles_afterOpen pm handle
  have hle := h.opened.length_le
  refine ⟨⟨?_, ?_⟩, ?_⟩
  · rw [hopened]
    exact h.opened.trans (List.sublist_append_left _ _).subperm
  · exact (closedHandles_append pm.calls [.dlopen handle]).trans (by rw [h.unclosed]; rfl)
  · rw [lost, hopened, List.length_append, lost]
    exact Nat.succ_sub hle

/-- A stored plugin takes the new handle, and the place of the one of its name. -/
theorem Accounted.stored (h : pm.Accounted) (pluginName : String) (handle : Handle) :
    (pm.stored pluginName handle).Accounted ∧ (pm.stored pluginName handle).lost =
      pm.lost + if (pm.mLoadedPlugins.find pluginName).isNone then 0 else 1 := by
  have hopened : openedHandles (pm.stored pluginName handle).calls = openedHandles pm.calls ++ [handle] :=
    openedHandles_afterOpen pm handle
  have hsub := Plugins.insertOrAssign_subperm pluginName ⟨handle, false⟩ pm.mLoadedPlugins
  have hlength := Plugins.insertOrAssign_length pluginName ⟨handle, false⟩ pm.mLoadedPlugins
  refine ⟨⟨?_, (h.afterOpen handle).1.unclosed⟩, ?_⟩
  · rw [hopened]
    have hall : (handle :: pm.mLoadedPlugins.handles).Subperm (handle :: openedHandles pm.calls) :=
      (List.subperm_cons handle).mpr h.opened
    exact (hsub.trans hall).trans (List.perm_append_singleton handle _).symm.subperm
  · have hle := h.opened.length_le
    have hheld : (pm.stored pluginName handle).mLoadedPlugins.handles.length = _ := hlength
    rw [lost, hopened, List.length_append, hheld, lost, List.length_singleton]
    split <;> omega

/-- The entry is not opened, or its plugin is complete and its name is new. -/
def keepsEntry (pm : PluginManager) (skipExisting : Bool) (entry : DirectoryEntry) : Bool :=
  (pm.opensEntry skipExisting entry).isNone || (entry.complete && (pm.mLoadedPlugins.find entry.stem).isNone)

/-- The operation comes to no entry that it loses a handle for. -/
abbrev KeepsHandles (pm : PluginManager) (op : PluginOp) : Prop := pm.LoadsOnly keepsEntry op

theorem Accounted.loadEntry (h : pm.Accounted) (skipExisting : Bool) (entry : DirectoryEntry) :
    (pm.loadEntry skipExisting entry).1.Accounted ∧
      (pm.loadEntry skipExisting entry).1.lost = pm.lost + if pm.keepsEntry skipExisting entry then 0 else 1 := by
  rcases loadEntry_cases pm skipExisting entry with ⟨hopens, hsame⟩ | ⟨handle, hopens, ⟨hcomplete, hr⟩ | ⟨hcomplete, hr⟩⟩
  · rw [hsame]
    exact ⟨h, by simp [keepsEntry, hopens]⟩
  · rw [hr]
    exact ⟨(h.afterOpen handle).1, by simp [keepsEntry, hopens, hcomplete, (h.afterOpen handle).2]⟩
  · rw [hr]
    exact ⟨(h.stored entry.stem handle).1, by simp [keepsEntry, hopens, hcomplete, (h.stored entry.stem handle).2]⟩

/-- `load` loses handles exactly when it comes to such an entry. -/
theorem Accounted.load (h : pm.Accounted) (skipExisting : Bool) (directory : List DirectoryEntry) :
    (pm.load skipExisting directory).1.Accounted ∧ pm.lost ≤ (pm.load skipExisting directory).1.lost ∧
      ((pm.load skipExisting directory).1.lost = pm.lost ↔
        pm.everyEntry keepsEntry skipExisting directory = true) := by
  induction directory generalizing pm with
  | nil => exact ⟨h, Nat.le_refl _, fun _ => rfl, fun _ => rfl⟩
  | cons entry rest ih =>
    obtain ⟨haccounted, hlost⟩ := h.loadEntry skipExisting entry
    obtain ⟨haccounted', hle, hiff⟩ := ih haccounted
    simp only [PluginManager.load, everyEntry]
    split
    · next pm' hr =>
      rw [hr] at hlost haccounted' hle hiff
      dsimp only at hlost haccounted' hle hiff
      simp only [hr, Option.isSome_none, Bool.false_or, Bool.and_eq_true, ← hiff]
      split at hlost
      · next hkeeps =>
        exact ⟨haccounted', by omega, fun heq => ⟨hkeeps, by omega⟩, fun heq => by omega⟩
      · next hloses =>
        exact ⟨haccounted', by omega, fun heq => by omega, fun heq => absurd heq.1 hloses⟩
    · next pm' error hr =>
      rw [hr] at hlost haccounted
      dsimp only at hlost haccounted
      simp only [hr, Option.isSome_some, Bool.true_or, Bool.and_true]
      split at hlost
      · next hkeeps => exact ⟨haccounted, by omega, fun _ => hkeeps, fun _ => hlost⟩
      · next hloses => exact ⟨haccounted, by omega, fun heq => by omega, fun heq => absurd heq hloses⟩

theorem Accounted.passed (h : pm.Accounted) {action : PluginAction} (hown : action.Own) {calls : List LibraryCall}
    (hcalls : pm'.calls = pm.calls ++ calls) (hp : Passed action pm.mLoadedPlugins pm'.mLoadedPlugins calls) :
    pm'.Accounted ∧ pm'.lost = pm.lost := by
  obtain ⟨hopened, hclosed⟩ := openedHandles_plugin fun c hc => (hp.calls_own hown c hc).2
  have hhandles := hp.handles hown
  have hsame : openedHandles pm'.calls = openedHandles pm.calls := by
    rw [hcalls, openedHandles_append, hopened, List.append_nil]
  refine ⟨⟨?_, ?_⟩, ?_⟩
  · rw [hhandles, hsame]
    exact h.opened
  · rw [hcalls, closedHandles_append, hclosed, List.append_nil, h.unclosed]
  · rw [lost, hhandles, hsame, lost]

theorem Accounted.rehash (h : pm.Accounted) {plugins : Plugins} (hp : plugins.Perm pm.mLoadedPlugins) :
    ({ pm with mLoadedPlugins := plugins } : PluginManager).Accounted ∧
      ({ pm with mLoadedPlugins := plugins } : PluginManager).lost = pm.lost := by
  have hhandles : (Plugins.handles plugins).Perm pm.mLoadedPlugins.handles := hp.map _
  refine ⟨⟨hhandles.subperm.trans h.opened, h.unclosed⟩, ?_⟩
  exact congrArg ((openedHandles pm.calls).length - ·) hhandles.length_eq

/-- The operations other than `load` leave the handles as they are. -/
theorem Accounted.step (h : pm.Accounted) {op : PluginOp} (hs : pm.step op = some pm') :
    pm'.Accounted ∧ pm.lost ≤ pm'.lost ∧ (pm'.lost = pm.lost ↔ pm.KeepsHandles op) := by
  have hquiet : pm'.Accounted ∧ pm'.lost = pm.lost → KeepsHandles pm op →
      pm'.Accounted ∧ pm.lost ≤ pm'.lost ∧ (pm'.lost = pm.lost ↔ pm.KeepsHandles op) :=
    fun ⟨haccounted, hlost⟩ hkeeps => ⟨haccounted, by omega, fun _ => hkeeps, fun _ => hlost⟩
  cases op with
  | load skipExisting directory =>
    cases hs
    exact h.load skipExisting directory
  | rehash plugins =>
    obtain ⟨hp, hs⟩ := Option.ite_none_right_eq_some.mp hs
    cases hs
    exact hquiet (h.rehash hp) trivial
  | initializeAll skipInitialized succeeds =>
    cases hs
    obtain ⟨calls, hcalls, hp⟩ := onAll_passed pm (initializeAction skipInitialized succeeds)
    exact hquiet (h.passed (initializeAction_own skipInitialized succeeds) hcalls hp) trivial
  | initializeNamed pluginName skipInitialized succeeds =>
    cases hs
    obtain ⟨calls, hcalls, hp⟩ := onNamed_passed pm (initializeAction skipInitialized succeeds) pluginName
    exact hquiet (h.passed (initializeAction_own skipInitialized succeeds) hcalls hp) trivial
  | deinitializeAll skipDeinitialized =>
    cases hs
    obtain ⟨calls, hcalls, hp⟩ := onAll_passed pm (deinitializeAction skipDeinitialized)
    exact hquiet (h.passed (deinitializeAction_own skipDeinitialized) hcalls hp) trivial
  | deinitializeNamed pluginName skipDeinitialized =>
    cases hs
    obtain ⟨calls, hcalls, hp⟩ := onNamed_passed pm (deinitializeAction skipDeinitialized) pluginName
    exact hquiet (h.passed (deinitializeAction_own skipDeinitialized) hcalls hp) trivial

/-- The destructor closes the handles of the plugins, each once. -/
theorem destroy_handles (pm : PluginManager) : openedHandles pm.destroy = openedHandles pm.calls ∧
    closedHandles pm.destroy = closedHandles pm.calls ++ pm.mLoadedPlugins.handles := by
  have hrelease : ∀ plugins : Plugins,
      openedHandles (plugins.flatMap fun e => release e.2) = [] ∧
        closedHandles (plugins.flatMap fun e => release e.2) = plugins.handles := by
    intro plugins
    induction plugins with
    | nil => exact ⟨rfl, rfl⟩
    | cons e rest ih =>
      rw [List.flatMap_cons, openedHandles_append, closedHandles_append, ih.1, ih.2]
      cases hi : e.2.initialized <;> simp [release, hi, openedHandles, closedHandles, Plugins.handles]
  obtain ⟨hopened, hclosed⟩ := hrelease pm.mLoadedPlugins
  exact ⟨by rw [destroy, openedHandles_append, hopened, List.append_nil],
    by rw [destroy, closedHandles_append, hclosed]⟩

end PluginManager

/-- No handle is closed more often than it was opened; and all are closed as often as they were opened
    exactly when no `load` came to an entry whose plugin lacks a function, or whose name was loaded
    already, and opened it. -/
theorem handles_closed_iff (ops : List PluginOp) (pm : PluginManager)
    (hr : run PluginManager.step .new ops = some pm) :
    (closedHandles pm.destroy).Subperm (openedHandles pm.destroy) ∧
      ((closedHandles pm.destroy).Perm (openedHandles pm.destroy) ↔
        Along PluginManager.step PluginManager.KeepsHandles .new ops) := by
  have h : pm.Accounted := run_preserves (fun _ _ _ h hs => (h.step hs).1) PluginManager.new_accounted hr
  obtain ⟨-, hiff⟩ := run_weight_eq_iff (I := PluginManager.Accounted) PluginManager.lost
    (fun _ _ _ h hs => (h.step hs).1) (fun _ _ _ h hc hs => (h.step hs).2.2.mpr hc)
    (fun _ _ _ h hc hs => Nat.lt_of_le_of_ne (h.step hs).2.1 fun heq => hc ((h.step hs).2.2.mp heq.symm))
    PluginManager.new_accounted hr
  obtain ⟨hopened, hclosed⟩ := pm.destroy_handles
  rw [h.unclosed, List.nil_append] at hclosed
  rw [hopened, hclosed, ← hiff]
  refine ⟨h.opened, fun hperm => ?_, fun hnone => ?_⟩
  · rw [PluginManager.lost, hperm.length_eq, Nat.sub_self]
    rfl
  · have hle : (openedHandles pm.calls).length ≤ pm.mLoadedPlugins.handles.length :=
      Nat.sub_eq_zero_iff_le.mp hnone
    exact h.opened.perm_of_length_le hle

def examplePlugin (stem : String) (handle : Handle) : DirectoryEntry :=
  ⟨true, stem, ".so", some handle, true, true, true⟩

/-- Two plugins are loaded and initialised, and deinitialised and closed by the destructor. -/
theorem handles_closed_pair :
    ∃ pm, run PluginManager.step .new
        [.load false [examplePlugin "mean" 16, examplePlugin "range" 32], .initializeAll true fun _ => true] = some pm ∧
      (closedHandles pm.destroy).Perm (openedHandles pm.destroy) :=
  ⟨_, rfl, (handles_closed_iff [.load false [examplePlugin "mean" 16, examplePlugin "range" 32],
    .initializeAll true fun _ => true] _ rfl).2.mpr (by decide)⟩

/-- A library is loaded again under its name; `dlopen` gives its handle twice, and it is closed once. -/
example : (run PluginManager.step .new
    [.load false [examplePlugin "mean" 16], .load true [examplePlugin "mean" 16]]).map
      (fun pm => (openedHandles pm.destroy, closedHandles pm.destroy)) = some ([16, 16], [16]) := by decide

/-! ### The protocol of a plugin -/

/-- What a handle has been through. -/
inductive PluginLife where
  | unopened
  | loaded
  | initialized
  | closed
  deriving DecidableEq, Repr

/-- The calls that are in order: a plugin that is initialised is not initialised again, and is
    deinitialised before its library is closed. A library may be opened again. -/
def PluginLife.next : PluginLife → LibraryCall → Option PluginLife
  | .unopened, .dlopen _ => some .loaded
  | .loaded, .dlopen _ => some .loaded
  | .initialized, .dlopen _ => some .initialized
  | .loaded, .initializePlugin _ success => some (if success then .initialized else .loaded)
  | .initialized, .deinitializePlugin _ => some .loaded
  | .loaded, .dlclose _ => some .closed
  | _, _ => none

def callsOf (handle : Handle) (calls : List LibraryCall) : List LibraryCall :=
  calls.filter fun c => decide (c.handle = handle)

/-- What the handle has been through, unless its calls are out of order. -/
def lifeOf (handle : Handle) (calls : List LibraryCall) : Option PluginLife :=
  run PluginLife.next .unopened (callsOf handle calls)

def Plugin.life (plugin : Plugin) : PluginLife := if plugin.initialized then .initialized else .loaded

/-- The flags that skip what is done already are at their defaults. -/
def PluginOp.skips : PluginOp → Bool
  | .load _ _ => true
  | .rehash _ => true
  | .initializeAll skipInitialized _ => skipInitialized
  | .initializeNamed _ skipInitialized _ => skipInitialized
  | .deinitializeAll skipDeinitialized => skipDeinitialized
  | .deinitializeNamed _ skipDeinitialized => skipDeinitialized

/-- The calls of the action are in order, and the plugin knows how it stands afterwards. -/
def PluginAction.Obeys (action : PluginAction) : Prop :=
  ∀ pluginName plugin, run PluginLife.next plugin.life (action pluginName plugin).2.1 =
    some (action pluginName plugin).1.life

theorem initializeAction_obeys (succeeds : Handle → Bool) : (initializeAction true succeeds).Obeys := by
  intro pluginName plugin
  obtain ⟨handle, initialized⟩ := plugin
  cases initialized with
  | true => rfl
  | false => cases hs : succeeds handle <;> simp [initializeAction, hs, run_cons, PluginLife.next, Plugin.life]

theorem deinitializeAction_obeys : (deinitializeAction true).Obeys := by
  intro pluginName plugin
  obtain ⟨handle, initialized⟩ := plugin
  cases initialized <;> rfl

theorem callsOf_append (handle : Handle) (calls calls' : List LibraryCall) :
    callsOf handle (calls ++ calls') = callsOf handle calls ++ callsOf handle calls' := List.filter_append ..

theorem lifeOf_append (handle : Handle) (calls calls' : List LibraryCall) :
    lifeOf handle (calls ++ calls') =
      (lifeOf handle calls).bind fun life => run PluginLife.next life (callsOf handle calls') := by
  rw [lifeOf, callsOf_append, run_append]
  rfl

theorem callsOf_eq_nil {handle : Handle} {calls : List LibraryCall} (h : ∀ c ∈ calls, c.handle ≠ handle) :
    callsOf handle calls = [] := List.filter_eq_nil_iff.mpr fun c hc => by simpa using h c hc

theorem callsOf_eq_self {handle : Handle} {calls : List LibraryCall} (h : ∀ c ∈ calls, c.handle = handle) :
    callsOf handle calls = calls := List.filter_eq_self.mpr fun c hc => by simpa using h c hc

namespace Passed

variable {action : PluginAction} {plugins plugins' : Plugins} {calls : List LibraryCall}

theorem callsOf_other (h : Passed action plugins plugins' calls) (hown : action.Own) {handle : Handle}
    (hother : handle ∉ plugins.handles) : callsOf handle calls = [] :=
  callsOf_eq_nil fun c hc heq => hother (heq ▸ (h.calls_own hown c hc).1)

/-- The calls of a pass are in order for each plugin. -/
theorem follows (h : Passed action plugins plugins' calls) (hown : action.Own) (hobeys : action.Obeys)
    (honce : plugins.handles.Nodup) : ∀ e' ∈ plugins', ∃ e ∈ plugins, e.2.handle = e'.2.handle ∧
      run PluginLife.next e.2.life (callsOf e'.2.handle calls) = some e'.2.life := by
  induction h with
  | stop plugins => exact fun e he => ⟨e, he, rfl, rfl⟩
  | skip e hrest ih =>
    obtain ⟨hnotin, honce⟩ := List.nodup_cons.mp honce
    intro e' he'
    rcases List.mem_cons.mp he' with rfl | he'
    · exact ⟨e', List.mem_cons_self, rfl, by rw [hrest.callsOf_other hown hnotin]; rfl⟩
    · obtain ⟨e₀, he₀, hhandle, hrun⟩ := ih honce e' he'
      exact ⟨e₀, List.mem_cons_of_mem e he₀, hhandle, hrun⟩
  | @act pluginName plugin rest rest' calls hrest ih =>
    obtain ⟨hnotin, honce⟩ := List.nodup_cons.mp honce
    have hcalls := fun c hc => (hown.calls pluginName plugin c hc).1
    intro e' he'
    rcases List.mem_cons.mp he' with rfl | he'
    · refine ⟨(pluginName, plugin), List.mem_cons_self, (hown.handle pluginName plugin).symm, ?_⟩
      rw [hown.handle, callsOf_append, callsOf_eq_self hcalls, hrest.callsOf_other hown hnotin, List.append_nil]
      exact hobeys pluginName plugin
    · obtain ⟨e₀, he₀, hhandle, hrun⟩ := ih honce e' he'
      have hother : ∀ c ∈ (action pluginName plugin).2.1, c.handle ≠ e'.2.handle := fun c hc heq => by
        rw [hcalls c hc, ← hhandle] at heq
        exact hnotin (List.mem_map.mpr ⟨e₀, he₀, heq.symm⟩)
      refine ⟨e₀, List.mem_cons_of_mem _ he₀, hhandle, ?_⟩
      rw [callsOf_append, callsOf_eq_nil hother, List.nil_append]
      exact hrun

end Passed

namespace PluginManager

variable {pm pm' : PluginManager}

/-- No other plugin holds the handle, and its library is not initialised. -/
def unused (pm : PluginManager) (pluginName : String) (handle : Handle) : Bool :=
  (pm.mLoadedPlugins.all fun e => e.1 == pluginName || e.2.handle != handle) &&
    lifeOf handle pm.calls != some .initialized

/-- The entry is not stored, or its library is not in use. -/
def storesUnused (pm : PluginManager) (skipExisting : Bool) (entry : DirectoryEntry) : Bool :=
  (pm.opensEntry skipExisting entry).all fun handle => !entry.complete || pm.unused entry.stem handle

/-- The operation loads no library that is in use. -/
abbrev LoadsUnused (pm : PluginManager) (op : PluginOp) : Prop := pm.LoadsOnly storesUnused op

/-- The calls so far are in order, and the plugins know how they stand. -/
structure InOrder (pm : PluginManager) : Prop where
  distinct : pm.mLoadedPlugins.names.Nodup
  once : pm.mLoadedPlugins.handles.Nodup
  held : ∀ e ∈ pm.mLoadedPlugins, lifeOf e.2.handle pm.calls = some e.2.life
  ordered : ∀ h, ∃ life, lifeOf h pm.calls = some life ∧ life ≠ .closed

theorem life_ne_closed (plugin : Plugin) : plugin.life ≠ .closed := by
  obtain ⟨handle, initialized⟩ := plugin
  cases initialized <;> exact nofun

theorem InOrder.passed (h : pm.InOrder) {action : PluginAction} (hown : action.Own) (hobeys : action.Obeys)
    {calls : List LibraryCall} (hcalls : pm'.calls = pm.calls ++ calls)
    (hp : Passed action pm.mLoadedPlugins pm'.mLoadedPlugins calls) : pm'.InOrder := by
  have hheld : ∀ e ∈ pm'.mLoadedPlugins, lifeOf e.2.handle pm'.calls = some e.2.life := by
    intro e' he'
    obtain ⟨e, he, hhandle, hrun⟩ := hp.follows hown hobeys h.once e' he'
    rw [hcalls, lifeOf_append, ← hhandle, h.held e he, Option.bind_some, hhandle]
    exact hrun
  refine ⟨hp.names.symm ▸ h.distinct, (hp.handles hown).symm ▸ h.once, hheld, fun k => ?_⟩
  by_cases hk : k ∈ pm'.mLoadedPlugins.handles
  · obtain ⟨e, he, rfl⟩ := List.mem_map.mp hk
    exact ⟨e.2.life, hheld e he, life_ne_closed e.2⟩
  -- a handle that no plugin holds is not called any more
  · rw [hp.handles hown] at hk
    obtain ⟨life, hlife, hne⟩ := h.ordered k
    refine ⟨life, ?_, hne⟩
    rw [hcalls, lifeOf_append, hlife, Option.bind_some, hp.callsOf_other hown hk]
    rfl

/-- Opening a library makes it a loaded one, or leaves it as it is. -/
theorem lifeOf_afterOpen {life : PluginLife} {handle k : Handle} (hlife : lifeOf k pm.calls = some life)
    (hne : life ≠ .closed) : lifeOf k (pm.afterOpen handle).calls =
      some (if handle = k ∧ life = .unopened then .loaded else life) := by
  rw [afterOpen, lifeOf_append, hlife, Option.bind_some]
  by_cases hk : handle = k
  · have hcall : callsOf k [.dlopen handle] = [.dlopen handle] := by simp [callsOf, LibraryCall.handle, hk]
    rw [hcall, run_cons]
    cases life <;> simp_all [PluginLife.next]
  · have hcall : callsOf k [.dlopen handle] = [] := by simp [callsOf, LibraryCall.handle, hk]
    rw [hcall, if_neg fun hboth => hk hboth.1]
    rfl

theorem InOrder.afterOpen (h : pm.InOrder) (handle : Handle) : (pm.afterOpen handle).InOrder := by
  refine ⟨h.distinct, h.once, fun e he => ?_, fun k => ?_⟩
  · have hopened : e.2.life ≠ .unopened := by cases hi : e.2.initialized <;> simp [Plugin.life, hi]
    rw [lifeOf_afterOpen (h.held e he) (life_ne_closed e.2), if_neg fun hboth => hopened hboth.2]
  · obtain ⟨life, hlife, hne⟩ := h.ordered k
    refine ⟨_, lifeOf_afterOpen hlife hne, ?_⟩
    split
    · exact nofun
    · exact hne

theorem InOrder.stored (h : pm.InOrder) {pluginName : String} {handle : Handle}
    (hunused : pm.unused pluginName handle = true) : (pm.stored pluginName handle).InOrder := by
  have hopen := h.afterOpen handle
  obtain ⟨hothers, hidle⟩ := Bool.and_eq_true_iff.mp hunused
  have hperm := Plugins.insertOrAssign_perm pluginName ⟨handle, false⟩ h.distinct
  -- the plugins of other names stay, and hold other handles
  have hkept : (pm.mLoadedPlugins.filter fun e => decide (e.1 ≠ pluginName)).Sublist pm.mLoadedPlugins :=
    List.filter_sublist
  have hapart : ∀ e ∈ pm.mLoadedPlugins.filter fun e => decide (e.1 ≠ pluginName),
      e.1 ≠ pluginName ∧ e.2.handle ≠ handle := by
    intro e he
    obtain ⟨he, hname⟩ := List.mem_filter.mp he
    have hother := List.all_eq_true.mp hothers e he
    simp_all
  have hnames := (hperm.map Prod.fst).nodup_iff
  have hhandles := (hperm.map fun e => e.2.handle).nodup_iff
  refine ⟨hnames.mpr (List.nodup_cons.mpr ⟨?_, (hkept.map Prod.fst).nodup h.distinct⟩),
    hhandles.mpr (List.nodup_cons.mpr ⟨?_, (hkept.map fun e : String × Plugin => e.2.handle).nodup h.once⟩), fun e he => ?_,
    hopen.ordered⟩
  · intro hmem
    obtain ⟨e, he, hname⟩ := List.mem_map.mp hmem
    exact (hapart e he).1 hname
  · intro hmem
    obtain ⟨e, he, hhandle⟩ := List.mem_map.mp hmem
    exact (hapart e he).2 hhandle
  · rcases List.mem_cons.mp (hperm.mem_iff.mp he) with rfl | he
    · obtain ⟨life, hlife, hne⟩ := h.ordered handle
      have hnew : lifeOf handle (pm.afterOpen handle).calls = some .loaded := by
        rw [lifeOf_afterOpen hlife hne]
        cases life <;> simp_all
      exact hnew
    · exact hopen.held e (hkept.subset he)

theorem InOrder.load (h : pm.InOrder) {skipExisting : Bool} {directory : List DirectoryEntry}
    (hunused : pm.everyEntry storesUnused skipExisting directory = true) :
    (pm.load skipExisting directory).1.InOrder := by
  induction directory generalizing pm with
  | nil => exact h
  | cons entry rest ih =>
    obtain ⟨hstores, hrest⟩ := Bool.and_eq_true_iff.mp hunused
    have hentry : (pm.loadEntry skipExisting entry).1.InOrder := by
      rcases loadEntry_cases pm skipExisting entry with ⟨-, hsame⟩ | ⟨handle, hopens, ⟨-, hr⟩ | ⟨hcomplete, hr⟩⟩
      · rw [hsame]
        exact h
      · rw [hr]
        exact h.afterOpen handle
      · rw [hr]
        exact h.stored (by simpa [storesUnused, hopens, hcomplete] using hstores)
    simp only [PluginManager.load]
    split
    · next pm' hr =>
      rw [hr] at hentry hrest
      exact ih hentry (by simpa using hrest)
    · next pm' error hr =>
      rw [hr] at hentry
      exact hentry

theorem InOrder.step (h : pm.InOrder) {op : PluginOp} (hskips : op.skips = true) (hunused : pm.LoadsUnused op)
    (hs : pm.step op = some pm') : pm'.InOrder := by
  cases op with
  | load skipExisting directory =>
    cases hs
    exact h.load hunused
  | rehash plugins =>
    obtain ⟨hp, hs⟩ := Option.ite_none_right_eq_some.mp hs
    cases hs
    exact ⟨(hp.map _).nodup_iff.mpr h.distinct, (hp.map _).nodup_iff.mpr h.once,
      fun e he => h.held e (hp.mem_iff.mp he), h.ordered⟩
  | initializeAll skipInitialized succeeds =>
    cases hs
    cases hskips
    obtain ⟨calls, hcalls, hp⟩ := onAll_passed pm (initializeAction true succeeds)
    exact h.passed (initializeAction_own true succeeds) (initializeAction_obeys succeeds) hcalls hp
  | initializeNamed pluginName skipInitialized succeeds =>
    cases hs
    cases hskips
    obtain ⟨calls, hcalls, hp⟩ := onNamed_passed pm (initializeAction true succeeds) pluginName
    exact h.passed (initializeAction_own true succeeds) (initializeAction_obeys succeeds) hcalls hp
  | deinitializeAll skipDeinitialized =>
    cases hs
    cases hskips
    obtain ⟨calls, hcalls, hp⟩ := onAll_passed pm (deinitializeAction true)
    exact h.passed (deinitializeAction_own true) deinitializeAction_obeys hcalls hp
  | deinitializeNamed pluginName skipDeinitialized =>
    cases hs
    cases hskips
    obtain ⟨calls, hcalls, hp⟩ := onNamed_passed pm (deinitializeAction true) pluginName
    exact h.passed (deinitializeAction_own true) deinitializeAction_obeys hcalls hp

end PluginManager

/-- A plugin that is initialised is loaded again; `dlopen` gives the handle of its library, which is then
    initialised a second time. -/
theorem reload_initializes_twice :
    ∃ pm, run PluginManager.step .new [.load false [examplePlugin "mean" 16], .initializeAll true fun _ => true,
        .load false [examplePlugin "mean" 16], .initializeAll true fun _ => true] = some pm ∧
      pm.calls = [.dlopen 16, .initializePlugin 16 true, .dlopen 16, .initializePlugin 16 true] ∧
      lifeOf 16 pm.calls = none :=
  ⟨_, rfl, rfl, rfl⟩

/-! ### Loading with the defaults -/

theorem PluginManager.load_empty {pm : PluginManager} (h : pm.mLoadedPlugins = []) (directory : List DirectoryEntry) :
    (pm.load true directory).1 = pm := by
  induction directory with
  | nil => rfl
  | cons entry rest ih =>
    have hentry : pm.loadEntry true entry = (pm, none) := by
      simp [loadEntry, h, Plugins.find]
    rw [load, hentry]
    exact ih

/-- A manager that is only used with the default of `skipExisting` never loads anything. -/
theorem load_default_nothing (ops : List PluginOp) (pm : PluginManager)
    (hdefault : ∀ skipExisting directory, .load skipExisting directory ∈ ops → skipExisting = true)
    (hr : run PluginManager.step .new ops = some pm) : pm = .new := by
  refine run_invariant (I := (· = PluginManager.new))
    (c := fun _ op => ∀ skipExisting directory, op = .load skipExisting directory → skipExisting = true)
    (fun s op t hs hop ht => ?_) ops _ _ rfl
    (along_of_mem (fun op hop _ skipExisting directory heq => hdefault skipExisting directory (by rw [← heq]; exact hop)) _)
    hr
  subst hs
  cases op with
  | load skipExisting directory =>
    obtain rfl := hop skipExisting directory rfl
    cases ht
    exact PluginManager.load_empty rfl directory
  | rehash plugins =>
    obtain ⟨hp, ht⟩ := Option.ite_none_right_eq_some.mp ht
    cases ht
    rw [hp.eq_nil]
    rfl
  | initializeAll skipInitialized succeeds => exact (Option.some.inj ht).symm
  | initializeNamed pluginName skipInitialized succeeds => exact (Option.some.inj ht).symm
  | deinitializeAll skipDeinitialized => exact (Option.some.inj ht).symm
  | deinitializeNamed pluginName skipDeinitialized => exact (Option.some.inj ht).symm

end StreamFdl
