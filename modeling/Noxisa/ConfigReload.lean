import Mathlib

/-!
# Hot reload of the configuration

An init script is a sequence of `nexus` calls with any Lua values as arguments.  They go
through `api.lua` into the configuration of the compositor: settings are overwritten, key
bindings are appended, and the overrides of a theme are written into the theme's own
table, which stays.  Reloading runs the script again in the same Lua state, on the same
configuration.
-/

namespace ConfigEngine

/-- The floats of Lua and of the configuration, and how Lua writes a number. -/
structure Floats (F64 F32 : Type) where
  one : F64
  asF32 : F64 → F32
  text : F64 → String

/-- The floats as they are. -/
def Floats.native : Floats Float Float32 where
  one := 1.0
  asF32 := Float.toFloat32
  text := toString

/-- The colours of a theme. -/
inductive Field
  | bg
  | fg
  | accent
  | border
deriving DecidableEq

/-- A Lua value.  A string that is not UTF-8 is `none`; of a table we only keep the colours of a
theme, where `nil` means that it has no such key. -/
inductive Value (F64 : Type)
  | nil
  | boolean (b : Bool)
  | integer (n : Int64)
  | number (f : F64)
  | string (s : Option String)
  | function
  | table (entries : Field → Value F64)
  | other

/-- The names of the built-in themes. -/
inductive ThemeName
  | dark
  | light
  | nord
deriving DecidableEq

/-- The keys of `_set`. -/
inductive Key
  | gap
  | borderWidth
  | borderRadius
  | animations
  | animSpeed
  | blur
  | blurRadius
  | layout
  | desktopCount
deriving DecidableEq

/-- What the configuration holds under a key. -/
def Key.Val (F32 : Type) : Key → Type
  | .gap | .borderWidth | .borderRadius | .blurRadius | .desktopCount => UInt32
  | .animations | .blur => Bool
  | .animSpeed => F32
  | .layout => String

/-- `KeyBinding` -/
structure KeyBinding where
  keys : String
  action : String
deriving DecidableEq

/-- `CompositorConfig` -/
@[ext] structure CompositorConfig (F32 : Type) where
  theme : Field → String
  settings : (key : Key) → key.Val F32
  keybindings : List KeyBinding

/-- The configuration, and the local `THEMES` of `api.lua`. -/
structure State (F64 F32 : Type) where
  config : CompositorConfig F32
  themes : ThemeName → Field → Value F64

/-- A call of a script. -/
inductive Call (F64 : Type)
  | theme (name overrides : Value F64)
  | gap (px : Value F64)
  | border (w r : Value F64)
  | animations (on s : Value F64)
  | blur (on r : Value F64)
  | layout (mode : Value F64)
  | desktops (n : Value F64)
  | bind (keys action : Value F64)

section
variable {F64 F32 : Type}

/-- What Lua takes for true. -/
def Value.truthy : Value F64 → Bool
  | .nil | .boolean false => false
  | _ => true

/-- `v or default` -/
def Value.or (v default : Value F64) : Value F64 := if v.truthy then v else default

/-- `v ~= false` -/
def Value.notFalse : Value F64 → Value F64
  | .boolean false => .boolean false
  | _ => .boolean true

/-- `nil` -/
def Value.isNil : Value F64 → Bool
  | .nil => true
  | _ => false

/-- `THEMES[name] or THEMES.dark` -/
def Value.themeName : Value F64 → ThemeName
  | .string (some "light") => .light
  | .string (some "nord") => .nord
  | _ => .dark

/-- The text that a colour of a theme sets, if it is a string. -/
def Value.colour : Value F64 → Option String
  | .string s => some (s.getD "")
  | _ => none

variable (fl : Floats F64 F32)

/-- What `_set` takes from a value, by the key. -/
def decode : (key : Key) → Value F64 → Option (key.Val F32)
  | .gap, .integer n => some n.toUInt64.toUInt32
  | .borderWidth, .integer n => some n.toUInt64.toUInt32
  | .borderRadius, .integer n => some n.toUInt64.toUInt32
  | .animations, .boolean b => some b
  | .animSpeed, .number f => some (fl.asF32 f)
  | .blur, .boolean b => some b
  | .blurRadius, .integer n => some n.toUInt64.toUInt32
  | .layout, .string s => some (s.getD "float")
  | .desktopCount, .integer n => some n.toUInt64.toUInt32
  | _, _ => none

/-- A value where a string is expected: numbers are written out. -/
def Value.asString : Value F64 → Option String
  | .string s => s
  | .integer n => some (toString n.toInt)
  | .number f => some (fl.text f)
  | _ => none

/-- One key of `nexus.set`: a value of the wrong type is ignored. -/
def setKey (c : CompositorConfig F32) (key : Key) (v : Value F64) : CompositorConfig F32 :=
  match decode fl key v with
  | some x => { c with settings := Function.update c.settings key x }
  | none => c

/-- A theme is applied, field by field; what is no string leaves the field alone. -/
def applyTheme (c : CompositorConfig F32) (t : Field → Value F64) : CompositorConfig F32 :=
  { c with theme := fun field => (t field).colour.getD (c.theme field) }

/-- The overrides, if there are any; `pairs` of anything but a table is an error. -/
def Value.overrides : Value F64 → Option (Field → Value F64)
  | .nil | .boolean false => some fun _ => .nil
  | .table entries => some entries
  | _ => none

/-- `for k, v in pairs(overrides) do t[k] = v end` -/
def merge (t overrides : Field → Value F64) : Field → Value F64 := fun field =>
  if (overrides field).isNil then t field else overrides field

/-- The binding that a call of `nexus.bind` adds.  A function is bound by an id made of the keys. -/
def binding (keys action : Value F64) : Option KeyBinding := do
  let keys ← keys.asString fl
  let action ← match action with
    | .function => some ("lua_cb_" ++ keys)
    | action => action.asString fl
  some { keys, action }

/-- The keys of one `nexus.set`. -/
def setKeys (c : CompositorConfig F32) (sets : List (Key × Value F64)) : CompositorConfig F32 :=
  sets.foldl (fun c set => setKey fl c set.1 set.2) c

/-- The calls of `_set` that a call makes. -/
def Call.sets : Call F64 → List (Key × Value F64)
  | .gap px => [(.gap, px)]
  | .border w r => [(.borderWidth, w.or (.integer 1)), (.borderRadius, r.or (.integer 8))]
  | .animations on s => [(.animations, on.notFalse), (.animSpeed, s.or (.number fl.one))]
  | .blur on r => [(.blur, on.notFalse), (.blurRadius, r.or (.integer 10))]
  | .layout mode => [(.layout, mode)]
  | .desktops n => [(.desktopCount, n)]
  | .theme .. | .bind .. => []

/-- One call; `none` if it is an error. -/
def call (st : State F64 F32) : Call F64 → Option (State F64 F32)
  | .theme name overrides => do
      let overrides ← overrides.overrides
      let t := merge (st.themes name.themeName) overrides
      some { config := applyTheme st.config t
             themes := Function.update st.themes name.themeName t }
  | .bind keys action => do
      let added ← binding fl keys action
      some { st with
        config := { st.config with keybindings := st.config.keybindings ++ [added] } }
  | c => some { st with config := setKeys fl st.config (c.sets fl) }

/-- A script runs until a call is an error; what the calls before have done stays. -/
def exec (st : State F64 F32) : List (Call F64) → State F64 F32
  | [] => st
  | c :: script =>
      match call fl st c with
      | none => st
      | some st => exec st script

/-- The `THEMES` of the standard library. -/
def builtin : ThemeName → Field → Value F64
  | .dark, .bg => .string "#0f1117"
  | .dark, .fg => .string "#e2e8f0"
  | .dark, .accent => .string "#7c3aed"
  | .dark, .border => .string "#2d3748"
  | .light, .bg => .string "#ffffff"
  | .light, .fg => .string "#0f172a"
  | .light, .accent => .string "#6d28d9"
  | .light, .border => .string "#e2e8f0"
  | .nord, .bg => .string "#2e3440"
  | .nord, .fg => .string "#d8dee9"
  | .nord, .accent => .string "#88c0d0"
  | .nord, .border => .string "#4c566a"

/-- `Theme::default` and the other values that `new` starts from. -/
def defaults : CompositorConfig F32 where
  theme := fun
    | .bg => "#0f1117"
    | .fg => "#e2e8f0"
    | .accent => "#7c3aed"
    | .border => "#2d3748"
  settings := fun
    | .gap => (4 : UInt32)
    | .borderWidth => (1 : UInt32)
    | .borderRadius => (8 : UInt32)
    | .animations => true
    | .animSpeed => fl.asF32 fl.one
    | .blur => true
    | .blurRadius => (10 : UInt32)
    | .layout => "float"
    | .desktopCount => (4 : UInt32)
  keybindings := []

/-- The calls at the end of `api.lua`. -/
def stdlib : List (Call F64) := [
  .theme (.string "dark") .nil,
  .gap (.integer 4),
  .border (.integer 1) (.integer 8),
  .animations (.boolean true) (.number fl.one),
  .blur (.boolean true) (.integer 10),
  .layout (.string "float"),
  .desktops (.integer 4),
  .bind (.string "super+return") (.string "terminal"),
  .bind (.string "super+b") (.string "browser"),
  .bind (.string "super+q") (.string "close_window"),
  .bind (.string "super+f") (.string "toggle_fullscreen"),
  .bind (.string "super+space") (.string "launcher"),
  .bind (.string "super+tab") (.string "next_window"),
  .bind (.string "super+left") (.string "snap_left"),
  .bind (.string "super+right") (.string "snap_right"),
  .bind (.string "super+up") (.string "maximize"),
  .bind (.string "super+down") (.string "restore"),
  .bind (.string "super+1") (.string "desktop_1"),
  .bind (.string "super+2") (.string "desktop_2"),
  .bind (.string "super+3") (.string "desktop_3"),
  .bind (.string "super+4") (.string "desktop_4"),
  .bind (.string "super+shift+r") .function,
  .bind (.string "ctrl+alt+t") (.string "terminal"),
  .bind (.string "super+l") (.string "lock_screen"),
  .bind (.string "super+shift+s") (.string "screenshot")]

/-- A new engine, with the library loaded. -/
def fresh : State F64 F32 := exec fl { config := defaults fl, themes := builtin } (stdlib fl)

/-- `load_user_config`, of a file with this script. -/
def loadUserConfig (st : State F64 F32) (script : List (Call F64)) : State F64 F32 :=
  exec fl st script

/-- `reload` -/
def reload (st : State F64 F32) (script : List (Call F64)) : State F64 F32 :=
  loadUserConfig fl st script

/-- The call is no error. -/
def Call.ok : Call F64 → Bool
  | .theme _ overrides => overrides.overrides.isSome
  | .bind keys action => (binding fl keys action).isSome
  | _ => true

/-- The calls before the first error. -/
def done (script : List (Call F64)) : List (Call F64) := script.takeWhile (Call.ok fl)

/-- What a call that is no error does. -/
def effect (st : State F64 F32) (c : Call F64) : State F64 F32 := (call fl st c).getD st

/-- A call stops the script exactly if it is not in order. -/
private theorem call_isSome (st : State F64 F32) (c : Call F64) :
    (call fl st c).isSome = c.ok fl := by
  cases c with
  | theme name overrides =>
      rw [call, Call.ok]
      cases overrides.overrides <;> rfl
  | bind keys action =>
      rw [call, Call.ok]
      cases binding fl keys action <;> rfl
  | _ => rfl

/-- A script does what its calls before the first error do. -/
theorem exec_eq (st : State F64 F32) (script : List (Call F64)) :
    exec fl st script = (done fl script).foldl (effect fl) st := by
  induction script generalizing st with
  | nil => rfl
  | cons c script ih =>
      have hok := call_isSome fl st c
      rw [exec, done, List.takeWhile_cons]
      cases hcall : call fl st c with
      | none =>
          rw [hcall] at hok
          rw [← hok]
          rfl
      | some st' =>
          rw [hcall] at hok
          have heffect : effect fl st c = st' := by rw [effect, hcall, Option.getD_some]
          rw [← hok]
          simp only [Option.isSome_some, if_true, List.foldl_cons, heffect]
          exact ih st'

/-- The last value that is set under a key. -/
def assigned (key : Key) (sets : List (Key × Value F64)) : Option (key.Val F32) :=
  sets.foldl (fun last set => if set.1 = key then (decode fl key set.2).or last else last) none

/-- The binding that a call adds. -/
def Call.binding : Call F64 → Option KeyBinding
  | .bind keys action => ConfigEngine.binding fl keys action
  | _ => none

/-- A setting after one key. -/
theorem setKey_settings (c : CompositorConfig F32) (k key : Key) (v : Value F64) :
    (setKey fl c k v).settings key =
      if k = key then (decode fl key v).getD (c.settings key) else c.settings key := by
  rw [setKey]
  by_cases h : k = key
  · subst h
    rw [if_pos rfl]
    cases decode fl k v with
    | none => rfl
    | some x => exact Function.update_self k x c.settings
  · rw [if_neg h]
    cases decode fl k v with
    | none => rfl
    | some x => exact Function.update_of_ne (Ne.symm h) x c.settings

/-- What is assigned to a key, with one assignment more. -/
theorem assigned_concat (key : Key) (sets : List (Key × Value F64)) (set : Key × Value F64) :
    assigned fl key (sets ++ [set]) =
      if set.1 = key then (decode fl key set.2).or (assigned fl key sets)
      else assigned fl key sets := by
  rw [assigned, List.foldl_append]
  rfl

/-- The later assignments win. -/
private theorem assigned_append (key : Key) (sets later : List (Key × Value F64)) :
    assigned fl key (sets ++ later) = (assigned fl key later).or (assigned fl key sets) := by
  induction later using List.reverseRecOn with
  | nil => rw [List.append_nil]; rfl
  | append_singleton later set ih =>
      rw [← List.append_assoc, assigned_concat, assigned_concat, ih]
      split
      · rw [Option.or_assoc]
      · rfl

/-- Several keys are set one after the other. -/
theorem setKeys_concat (c : CompositorConfig F32) (sets : List (Key × Value F64))
    (set : Key × Value F64) :
    setKeys fl c (sets ++ [set]) = setKey fl (setKeys fl c sets) set.1 set.2 := by
  rw [setKeys, List.foldl_append]
  rfl

/-- What is left of the settings under a key is the last value, or what there was. -/
private theorem setKeys_settings (c : CompositorConfig F32) (sets : List (Key × Value F64))
    (key : Key) :
    (setKeys fl c sets).settings key = (assigned fl key sets).getD (c.settings key) := by
  induction sets using List.reverseRecOn with
  | nil => rfl
  | append_singleton sets set ih =>
      rw [setKeys_concat, assigned_concat, setKey_settings, ih]
      split
      · cases decode fl key set.2 <;> rfl
      · rfl

/-- A value that the script itself wrote into the table of a theme, or one that is in the
table. -/
inductive Source (F64 : Type)
  | fixed (v : Value F64)
  | table (name : ThemeName)

/-- The last override of a field in each table, and the values that the theme calls so far have
read for it, latest first. -/
structure Trail (F64 : Type) where
  overrides : ThemeName → Value F64 := fun _ => .nil
  sources : List (Source F64) := []

/-- A call, for the trail of a field. -/
def Trail.add (field : Field) (trail : Trail F64) : Call F64 → Trail F64
  | .theme name overrides =>
      let entries := overrides.overrides.getD fun _ => .nil
      let kept := if (entries field).isNil then trail.overrides
        else Function.update trail.overrides name.themeName (entries field)
      let v := kept name.themeName
      { overrides := kept
        sources := (if v.isNil then .table name.themeName else .fixed v) :: trail.sources }
  | _ => trail

/-- The sources of a colour in a script, from its last theme call on backwards. -/
def sources (field : Field) (script : List (Call F64)) : List (Source F64) :=
  (script.foldl (Trail.add field) {}).sources

/-- The first source that is a string; at the end the colour that there is. -/
def resolve (st : State F64 F32) (field : Field) : List (Source F64) → String
  | [] => st.config.theme field
  | .fixed v :: rest => v.colour.getD (resolve st field rest)
  | .table name :: rest => (st.themes name field).colour.getD (resolve st field rest)

/-- What the tables hold after a script with this trail. -/
def Trail.entry (trail : Trail F64) (st : State F64 F32) (field : Field) (name : ThemeName) :
    Value F64 :=
  if (trail.overrides name).isNil then st.themes name field else trail.overrides name

/-- The state after a script with this trail. -/
structure Follows (field : Field) (st st' : State F64 F32) (trail : Trail F64) : Prop where
  tables : ∀ name, st'.themes name field = trail.entry st field name
  colour : st'.config.theme field = resolve st field trail.sources

/-- `nexus.set` sets neither the colours nor the bindings. -/
theorem setKeys_frame (c : CompositorConfig F32) (sets : List (Key × Value F64)) :
    (setKeys fl c sets).theme = c.theme ∧ (setKeys fl c sets).keybindings = c.keybindings := by
  have hkey : ∀ (c : CompositorConfig F32) key v,
      (setKey fl c key v).theme = c.theme ∧ (setKey fl c key v).keybindings = c.keybindings := by
    intro c key v
    rw [setKey]
    cases decode fl key v <;> exact ⟨rfl, rfl⟩
  induction sets using List.reverseRecOn with
  | nil => exact ⟨rfl, rfl⟩
  | append_singleton sets set ih =>
      obtain ⟨htheme, hbindings⟩ := hkey (setKeys fl c sets) set.1 set.2
      rw [setKeys_concat, htheme, hbindings]
      exact ih

/-- A call of `nexus.theme` writes the overrides into the table and applies it. -/
theorem Follows.theme {field : Field} {st st' : State F64 F32} {trail : Trail F64}
    (h : Follows field st st' trail) {name overrides : Value F64} {entries : Field → Value F64}
    (hentries : overrides.overrides = some entries) :
    Follows field st (effect fl st' (.theme name overrides))
      (trail.add field (.theme name overrides)) := by
  have heffect : effect fl st' (.theme name overrides) =
      { config := applyTheme st'.config (merge (st'.themes name.themeName) entries)
        themes := Function.update st'.themes name.themeName
          (merge (st'.themes name.themeName) entries) } := by
    rw [effect, call, hentries]
    rfl
  have htrail : (trail.add field (.theme name overrides)).overrides =
      if (entries field).isNil then trail.overrides
      else Function.update trail.overrides name.themeName (entries field) := by
    rw [Trail.add, hentries]
    rfl
  have hentry : (trail.add field (.theme name overrides)).entry st field name.themeName =
      merge (st'.themes name.themeName) entries field := by
    rw [Trail.entry, htrail, merge]
    by_cases hnil : (entries field).isNil = true
    · rw [if_pos hnil, if_pos hnil]
      exact (h.tables name.themeName).symm
    · rw [if_neg hnil, if_neg hnil, Function.update_self, if_neg hnil]
  rw [heffect]
  constructor
  · intro other
    by_cases hother : other = name.themeName
    · rw [hother, hentry]
      exact congrFun (Function.update_self ..) field
    · have hkept : (trail.add field (.theme name overrides)).overrides other =
          trail.overrides other := by
        rw [htrail]
        split
        · rfl
        · exact Function.update_of_ne hother ..
      rw [Trail.entry, hkept]
      exact (congrFun (Function.update_of_ne hother ..) field).trans (h.tables other)
  · have hsources : (trail.add field (.theme name overrides)).sources =
        (if ((trail.add field (.theme name overrides)).overrides name.themeName).isNil
          then .table name.themeName
          else .fixed ((trail.add field (.theme name overrides)).overrides name.themeName)) ::
        trail.sources := rfl
    have hresolve : resolve st field (trail.add field (.theme name overrides)).sources =
        ((trail.add field (.theme name overrides)).entry st field name.themeName).colour.getD
          (resolve st field trail.sources) := by
      rw [hsources, Trail.entry]
      split <;> rfl
    rw [hresolve, hentry, ← h.colour]
    rfl

/-- **One call** follows the trail. -/
theorem Follows.step {field : Field} {st st' : State F64 F32} {trail : Trail F64}
    (h : Follows field st st' trail) {c : Call F64} (hok : c.ok fl = true) :
    Follows field st (effect fl st' c) (trail.add field c) := by
  have hsets : ∀ c : Call F64, call fl st' c =
      some { st' with config := setKeys fl st'.config (c.sets fl) } →
        trail.add field c = trail → Follows field st (effect fl st' c) (trail.add field c) := by
    intro c hcall htrail
    rw [effect, hcall, htrail]
    exact ⟨h.tables, (congrFun (setKeys_frame fl _ _).1 field).trans h.colour⟩
  cases c with
  | theme name overrides =>
      obtain ⟨entries, hentries⟩ := Option.isSome_iff_exists.mp hok
      exact h.theme fl hentries
  | bind keys action =>
      obtain ⟨added, hadded⟩ := Option.isSome_iff_exists.mp hok
      rw [effect, call, hadded]
      exact ⟨h.tables, h.colour⟩
  | _ => exact hsets _ rfl rfl

/-- After a script the tables and the colours are what its trail says. -/
theorem follows_script (field : Field) (st : State F64 F32) {script : List (Call F64)}
    (hok : ∀ c ∈ script, c.ok fl = true) :
    Follows field st (script.foldl (effect fl) st) (script.foldl (Trail.add field) {}) := by
  induction script using List.reverseRecOn with
  | nil => exact ⟨fun _ => rfl, rfl⟩
  | append_singleton script c ih =>
      rw [List.foldl_append, List.foldl_append]
      exact (ih fun c hc => hok c (List.mem_append_left _ hc)).step fl
        (hok c (List.mem_append_right _ (List.mem_singleton_self c)))

/-- The values that a script sets. -/
def allSets (script : List (Call F64)) : List (Key × Value F64) := script.flatMap (Call.sets fl)

/-- What a call does to the settings is what its assignments do. -/
theorem effect_settings (st : State F64 F32) (c : Call F64) :
    (effect fl st c).config.settings = (setKeys fl st.config (c.sets fl)).settings := by
  cases c with
  | theme name overrides =>
      rw [effect, call]
      cases overrides.overrides <;> rfl
  | bind keys action =>
      rw [effect, call]
      cases binding fl keys action <;> rfl
  | _ => rfl

/-- What a call does to the bindings. -/
theorem effect_keybindings (st : State F64 F32) (c : Call F64) :
    (effect fl st c).config.keybindings =
      st.config.keybindings ++ (c.binding fl).toList := by
  have hsets := fun c : Call F64 => (setKeys_frame fl st.config (c.sets fl)).2
  cases c with
  | theme name overrides =>
      rw [effect, call]
      cases overrides.overrides <;> exact (List.append_nil _).symm
  | bind keys action =>
      rw [effect, call, Call.binding]
      cases ConfigEngine.binding fl keys action with
      | none => exact (List.append_nil _).symm
      | some added => rfl
  | _ => exact (hsets _).trans (List.append_nil _).symm

/-- After a script each setting is the last value set, or what it was. -/
theorem script_settings (st : State F64 F32) (script : List (Call F64)) (key : Key) :
    (script.foldl (effect fl) st).config.settings key =
      (assigned fl key (allSets fl script)).getD (st.config.settings key) := by
  induction script using List.reverseRecOn with
  | nil => rfl
  | append_singleton script c ih =>
      have hall : allSets fl (script ++ [c]) = allSets fl script ++ c.sets fl := by
        rw [allSets, List.flatMap_append, List.flatMap_singleton]
        rfl
      rw [List.foldl_append, List.foldl_cons, List.foldl_nil, effect_settings, setKeys_settings, ih,
        hall, assigned_append]
      cases assigned fl key (c.sets fl) <;> rfl

/-- A script adds its bindings to those there are. -/
theorem script_keybindings (st : State F64 F32) (script : List (Call F64)) :
    (script.foldl (effect fl) st).config.keybindings =
      st.config.keybindings ++ script.filterMap (Call.binding fl) := by
  induction script generalizing st with
  | nil => exact (List.append_nil _).symm
  | cons c script ih =>
      rw [List.foldl_cons, ih, effect_keybindings, List.filterMap_cons, List.append_assoc]
      cases c.binding fl <;> rfl

/-- Reloading gives what loading on a new engine does. -/
def HistoryFree (s1 s2 : List (Call F64)) : Prop :=
  (reload fl (loadUserConfig fl (fresh fl) s1) s2).config = (loadUserConfig fl (fresh fl) s2).config

/-- The colour of a theme before any override. -/
def builtinColour (name : ThemeName) (field : Field) : String :=
  ((builtin name field : Value Empty).colour).getD ""

/-- The last override of a field in the table of a theme, `nil` if there is none. -/
def lastOverride (field : Field) (script : List (Call F64)) (name : ThemeName) : Value F64 :=
  (script.foldl (Trail.add field) {}).overrides name

/-- What a script leaves in the table of a theme: its last override, or the colour that
was there. -/
def leftInTable (field : Field) (script : List (Call F64)) (name : ThemeName) : Value F64 :=
  if (lastOverride field script name).isNil then builtin name field
  else lastOverride field script name

/-- The first string among the sources, for given tables. -/
def found (tables : ThemeName → Value F64) : List (Source F64) → Option String
  | [] => none
  | .fixed v :: rest => v.colour.or (found tables rest)
  | .table name :: rest => (tables name).colour.or (found tables rest)

/-- A value that the script wrote itself and that is no string: such a theme call leaves
the colour as it is. -/
def Source.silent : Source F64 → Bool
  | .fixed v => v.colour.isNone
  | .table _ => false

/-- The colour that the theme calls of a script leave in a new engine. -/
def leftColour (field : Field) (script : List (Call F64)) : String :=
  (found (builtin · field) (sources field script)).getD (builtinColour .dark field)

/-- A colour does not depend on what `s1` did. The last theme call of `s2` that sets it
decides:
* it sets a string that `s2` wrote into the table itself; or
* it takes what is in the table of a theme, and `s1` did not override the field there,
  or last with the string that was there at first; or with no string, and further back
  in `s2`, then in `s1`, that same string was set last; or
* there is no such call, and `s1` leaves the colour of the dark theme. -/
def Undone (field : Field) (s1 s2 : List (Call F64)) : Prop :=
  match (sources field s2).dropWhile Source.silent with
  | [] => leftColour field s1 = builtinColour .dark field
  | .fixed _ :: _ => True
  | .table name :: rest =>
      (lastOverride field s1 name).isNil = true ∨
        (lastOverride field s1 name).colour = some (builtinColour name field) ∨
        (lastOverride field s1 name).colour = none ∧
          (found (leftInTable field s1) rest).getD (leftColour field s1) =
            builtinColour name field

/-- The first script leaves nothing that the second one does not replace. It adds no
binding; what it sets to another value than the default one, the second script sets;
and the theme calls and overrides of the two leave no colour of the first. -/
structure Replaced (s1 s2 : List (Call F64)) : Prop where
  bindings : (done fl s1).filterMap (Call.binding fl) = []
  settings : ∀ key x, assigned fl key (allSets fl (done fl s1)) = some x →
    x = (fresh fl).config.settings key ∨
      assigned fl key (allSets fl (done fl s2)) ≠ none
  colours : ∀ field, Undone field (done fl s1) (done fl s2)

/-- The built-in tables hold strings only. -/
theorem builtin_colour (name : ThemeName) (field : Field) :
    (builtin name field : Value F64).colour = some (builtinColour name field) := by
  cases name <;> cases field <;> rfl

/-- The colour found in a state, in the terms of its tables and its current colour. -/
theorem resolve_eq (st : State F64 F32) (field : Field) (l : List (Source F64)) :
    resolve st field l = (found (st.themes · field) l).getD (st.config.theme field) := by
  induction l with
  | nil => rfl
  | cons source rest ih =>
      cases source with
      | fixed v =>
          rw [resolve, found, ih]
          cases v.colour <;> rfl
      | table name =>
          rw [resolve, found, ih]
          cases (st.themes name field).colour <;> rfl

/-- Silent sources are passed over. -/
theorem found_dropWhile (tables : ThemeName → Value F64) (l : List (Source F64)) :
    found tables (l.dropWhile Source.silent) = found tables l := by
  induction l with
  | nil => rfl
  | cons source rest ih =>
      rw [List.dropWhile_cons]
      split
      · rename_i hsilent
        cases source with
        | fixed v =>
            have hnone : v.colour = none := Option.isNone_iff_eq_none.mp hsilent
            rw [ih, found, hnone, Option.none_or]
        | table name => cases hsilent
      · rfl

/-- The calls of `api.lua` itself change no table and set the dark theme. -/
theorem fresh_follows (field : Field) :
    (∀ name, (fresh fl).themes name field = builtin name field) ∧
      (fresh fl).config.theme field = builtinColour .dark field := by
  have hok : ∀ c ∈ stdlib fl, c.ok fl = true := by
    simp [stdlib, Call.ok, Value.overrides, binding, Value.asString]
  have hdone : done fl (stdlib fl) = stdlib fl := List.takeWhile_eq_self_iff.mpr hok
  have hfollows := follows_script fl field
    ({ config := defaults fl, themes := builtin } : State F64 F32) hok
  rw [← hdone, ← exec_eq, hdone] at hfollows
  refine ⟨fun name => hfollows.tables name, hfollows.colour.trans ?_⟩
  cases field <;> rfl

/-- A script follows its trail up to the first error. -/
theorem exec_follows (st : State F64 F32) (script : List (Call F64)) (field : Field) :
    Follows field st (exec fl st script) ((done fl script).foldl (Trail.add field) {}) := by
  rw [exec_eq]
  exact follows_script fl field st fun c hc => (List.mem_takeWhile_imp hc)

/-- What the first script leaves in the tables and in the configuration. -/
theorem left_by (s1 : List (Call F64)) (field : Field) :
    (∀ name, (exec fl (fresh fl) s1).themes name field = leftInTable field (done fl s1) name) ∧
      (exec fl (fresh fl) s1).config.theme field = leftColour field (done fl s1) := by
  obtain ⟨htables, hcolour⟩ := exec_follows fl (fresh fl) s1 field
  obtain ⟨hbuiltin, hdark⟩ := fresh_follows fl field
  constructor
  · intro name
    rw [htables, Trail.entry, hbuiltin]
    rfl
  · rw [hcolour, resolve_eq, hdark]
    simp only [hbuiltin]
    rfl

/-- A colour comes out the same just where the scripts leave nothing of the first. -/
theorem colour_iff (s1 s2 : List (Call F64)) (field : Field) :
    (exec fl (exec fl (fresh fl) s1) s2).config.theme field =
        (exec fl (fresh fl) s2).config.theme field ↔
      Undone field (done fl s1) (done fl s2) := by
  obtain ⟨htables, hcolour⟩ := left_by fl s1 field
  obtain ⟨hbuiltin, hdark⟩ := fresh_follows fl field
  have hthen : ∀ st : State F64 F32, (exec fl st s2).config.theme field =
      (found (st.themes · field) ((sources field (done fl s2)).dropWhile Source.silent)).getD
        (st.config.theme field) := fun st => by
    rw [found_dropWhile, ← resolve_eq]
    exact (exec_follows fl st s2 field).colour
  rw [hthen, hthen (fresh fl), hcolour, hdark]
  simp only [htables, hbuiltin]
  rw [Undone]
  cases hdecides : (sources field (done fl s2)).dropWhile Source.silent with
  | nil => rfl
  | cons source rest =>
      cases source with
      | fixed v =>
          have hstring : v.colour.isNone = false := by
            have hhead := List.head_dropWhile_not Source.silent (l := sources field (done fl s2))
              (by rw [hdecides]; exact List.cons_ne_nil _ _)
            simp only [hdecides] at hhead
            exact hhead
          obtain ⟨text, htext⟩ := Option.isSome_iff_exists.mp (Option.isNone_eq_false_iff.mp hstring)
          exact iff_of_true (by simp [found, htext]) trivial
      | table name =>
          have hthere : (found (fun n => (builtin n field : Value F64)) (.table name :: rest)).getD
              (builtinColour .dark field) = builtinColour name field := by
            rw [found, builtin_colour]
            rfl
          rw [hthere, found, leftInTable]
          by_cases hnil : (lastOverride field (done fl s1) name).isNil = true
          · rw [if_pos hnil, builtin_colour]
            exact iff_of_true rfl (Or.inl hnil)
          · rw [if_neg hnil]
            cases hlast : (lastOverride field (done fl s1) name).colour with
            | none => simp [hnil, hlast]
            | some text => simp [hnil, hlast]

/-- Reloading does not depend on what was loaded before just when all of that is replaced. -/
theorem reload_history_free (s1 s2 : List (Call F64)) :
    HistoryFree fl s1 s2 ↔ Replaced fl s1 s2 := by
  have hbindings : ∀ (st : State F64 F32) script, (exec fl st script).config.keybindings =
      st.config.keybindings ++ (done fl script).filterMap (Call.binding fl) := fun st script => by
    rw [exec_eq, script_keybindings]
  have hsettings : ∀ (st : State F64 F32) script key, (exec fl st script).config.settings key =
      (assigned fl key (allSets fl (done fl script))).getD (st.config.settings key) :=
    fun st script key => by rw [exec_eq, script_settings]
  unfold HistoryFree reload loadUserConfig
  constructor
  · intro h
    constructor
    · have hlist := congrArg CompositorConfig.keybindings h
      rw [hbindings, hbindings (fresh fl) s1, hbindings, List.append_assoc] at hlist
      have hlength := congrArg List.length hlist
      simp only [List.length_append] at hlength
      exact List.length_eq_zero_iff.mp (by omega)
    · intro key x hx
      have hkey := congrFun (congrArg CompositorConfig.settings h) key
      rw [hsettings, hsettings (fresh fl) s1, hsettings, hx] at hkey
      cases hlast : assigned fl key (allSets fl (done fl s2)) with
      | none =>
          rw [hlast] at hkey
          exact Or.inl hkey
      | some y => exact Or.inr (Option.some_ne_none y)
    · intro field
      exact (colour_iff fl s1 s2 field).mp (congrFun (congrArg CompositorConfig.theme h) field)
  · intro h
    apply CompositorConfig.ext
    · funext field
      exact (colour_iff fl s1 s2 field).mpr (h.colours field)
    · funext key
      rw [hsettings, hsettings (fresh fl) s1, hsettings]
      cases hlast : assigned fl key (allSets fl (done fl s2)) with
      | some y => rfl
      | none =>
          cases hfirst : assigned fl key (allSets fl (done fl s1)) with
          | none => rfl
          | some x => exact (h.settings key x hfirst).resolve_right fun hne => hne hlast
    · rw [hbindings, hbindings (fresh fl) s1, hbindings, h.bindings, List.append_nil]

end

/-- Reloading an unchanged script with one binding in it adds the binding again. -/
theorem reloaded_binding_twice : ¬HistoryFree Floats.native
    [.bind (.string "super+t") (.string "terminal")]
    [.bind (.string "super+t") (.string "terminal")] := by
  intro h
  have hlength := congrArg (fun c => c.keybindings.length) h
  exact absurd hlength (by decide)

end ConfigEngine
