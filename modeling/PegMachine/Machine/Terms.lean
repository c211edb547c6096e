import PegMachine.Settings

namespace PegMachine.Machine

/-- The terms on which a run goes on: how many steps it may take, if the limit is positive, and
whether it is traced, in colours or not. The settings are live: custom actions may change them, and
a run that is embedded in this one gets its terms from them. -/
structure Terms where
  limit : Int := 0
  debug : Bool := false
  colors : Bool := false
  settings : Settings := Settings.default
  deriving Repr, DecidableEq

/-- Reads the terms of a run off its settings. Only a traced run asks for colours. -/
def Terms.ofSettings (settings : Settings) : Except SettingError Terms := do
  let limit ← settings.getInt Settings.limitKey
  let debug ← settings.getBool Settings.debugKey
  let colors ← if debug then settings.getBool Settings.colorsKey else .ok false
  return { limit := limit, debug := debug, colors := colors, settings := settings }

/-- The terms of a run from the rule `main` that is embedded in one on the terms `t`. It works on a
copy of the settings and never has to consume all of the input. -/
def Terms.inside? (t : Terms) (main : Bytes) : Except SettingError Terms := do
  let settings ← t.settings.set Settings.mainKey (.text main)
  let settings ← settings.set Settings.exactKey (.bool false)
  Terms.ofSettings settings

/-- What a machine is configured with. Settings that it does not read are among the others. -/
structure Config where
  main : Bytes := "main"
  exact : Bool := true
  limit : Int := 0
  debug : Bool := false
  colors : Bool := false
  others : Settings := Settings.default
  deriving Repr, DecidableEq

namespace Config

def ofSettings (settings : Settings) : Except SettingError Config := do
  let main ← settings.getText Settings.mainKey
  let exact ← settings.getBool Settings.exactKey
  let terms ← Terms.ofSettings settings
  return { main := main
           exact := exact
           limit := terms.limit
           debug := terms.debug
           colors := terms.colors
           others := settings }

/-- The settings of a machine as a whole. -/
def settings (c : Config) : Settings :=
  let given := Settings.put Settings.mainKey (.text c.main)
    (Settings.put Settings.exactKey (.bool c.exact)
      (Settings.put Settings.limitKey (.int c.limit)
        (Settings.put Settings.debugKey (.bool c.debug) c.others)))
  if c.debug then Settings.put Settings.colorsKey (.bool c.colors) given else given

/-- The terms of the outermost run. -/
def terms (c : Config) : Terms where
  limit := c.limit
  debug := c.debug
  colors := c.colors
  settings := c.settings

end Config

end PegMachine.Machine
