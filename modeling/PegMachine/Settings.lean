import PegMachine.Text.Utf8

namespace PegMachine

inductive SettingType where
  | bool | int | text
  deriving Repr, DecidableEq

def SettingType.name : SettingType → Bytes
  | .bool => "bool"
  | .int => "int"
  | .text => "string"

inductive Setting where
  | bool (b : Bool)
  | int (n : Int)
  | text (t : Bytes)
  deriving Repr, DecidableEq

namespace Setting

def type : Setting → SettingType
  | .bool _ => .bool
  | .int _ => .int
  | .text _ => .text

def render : Setting → Bytes
  | .bool b => (if b then "true" else "false") ++ " (bool)"
  | .int n => Bytes.ofInt n ++ " (int)"
  | .text t => t ++ " (string)"

end Setting

inductive SettingError where
  | assigned (given declared : SettingType)
  | retrieved (asked declared : SettingType)
  | absent (asked : SettingType) (key : Bytes)
  deriving Repr, DecidableEq

def SettingError.message : SettingError → Bytes
  | .assigned given declared =>
    "Can't assign `" ++ given.name ++ "` to type `" ++ declared.name ++ "`"
  | .retrieved asked declared =>
    "Can't retrieve `" ++ asked.name ++ "` from `" ++ declared.name ++ "` variable"
  | .absent asked key =>
    (match asked with
      | .bool => "Bool"
      | .int => "Int"
      | .text => "String") ++ " setting `" ++ key ++ "` does not exist"

abbrev Settings := List (Bytes × Setting)

namespace Settings

/-- Puts a setting in its place, in whatever type. -/
def put (key : Bytes) (setting : Setting) : Settings → Settings
  | [] => [(key, setting)]
  | (k, s) :: rest =>
    if k = key then (key, setting) :: rest
    else if Bytes.less key k then (key, setting) :: (k, s) :: rest
    else (k, s) :: put key setting rest

/-- Changes a setting or adds a new one; the type of a setting cannot change. -/
def set (settings : Settings) (key : Bytes) (setting : Setting) : Except SettingError Settings :=
  match settings.lookup key with
  | some old =>
    if old.type = setting.type then .ok (put key setting settings)
    else .error (.assigned setting.type old.type)
  | none => .ok (put key setting settings)

/-- The setting `key`, which has to have the type asked for. -/
def get (settings : Settings) (asked : SettingType) (key : Bytes) : Except SettingError Setting :=
  match settings.lookup key with
  | none => .error (.absent asked key)
  | some s => if s.type = asked then .ok s else .error (.retrieved asked s.type)

/-- The truth value under a key. -/
def getBool (settings : Settings) (key : Bytes) : Except SettingError Bool := do
  match ← settings.get .bool key with
  | .bool b => .ok b
  | other => .error (.retrieved .bool other.type)

def getInt (settings : Settings) (key : Bytes) : Except SettingError Int := do
  match ← settings.get .int key with
  | .int n => .ok n
  | other => .error (.retrieved .int other.type)

def getText (settings : Settings) (key : Bytes) : Except SettingError Bytes := do
  match ← settings.get .text key with
  | .text t => .ok t
  | other => .error (.retrieved .text other.type)

/-- The key filled with blanks up to `width` characters. -/
def padded (width : Nat) (key : Bytes) : Bytes :=
  key ++ Bytes.blanks (width - (Utf8.runes key).length)

/-- One line a setting, the values below each other. -/
def render (settings : Settings) : Bytes :=
  let width := settings.foldl (fun width entry => max width entry.1.length) 0
  settings.flatMap fun entry => padded width entry.1 ++ " : " ++ entry.2.render ++ Bytes.newline

def report (settings : Settings) : Bytes := "Configuration\n" ++ settings.render

/-- The rule a run starts from. -/
def mainKey : Bytes := "vm.main"
/-- Whether the whole input has to be consumed. -/
def exactKey : Bytes := "vm.exact"
/-- The largest number of steps; none when it is not positive. -/
def limitKey : Bytes := "vm.limit"
def debugKey : Bytes := "vm.debug"
def colorsKey : Bytes := "vm.debug.colors"

/-- The settings a machine expects, with their defaults. -/
def default : Settings :=
  [(debugKey, .bool false), (colorsKey, .bool false), (exactKey, .bool true),
    (limitKey, .int 0), (mainKey, .text "main")]

end Settings

end PegMachine
