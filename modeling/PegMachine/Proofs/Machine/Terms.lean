import PegMachine.Machine.Terms
import PegMachine.Proofs.Settings

namespace PegMachine.Machine

open Settings

/-- The settings still say what a run is on, so a run inside of it will be on the same terms. -/
structure Terms.Settled (t : Terms) : Prop where
  main : ∃ name, t.settings.lookup mainKey = some (.text name)
  exact : ∃ b, t.settings.lookup exactKey = some (.bool b)
  limit : t.settings.lookup limitKey = some (.int t.limit)
  debug : t.settings.lookup debugKey = some (.bool t.debug)
  colors : t.debug = true → t.settings.lookup colorsKey = some (.bool t.colors)

/-- The terms of a run that is embedded in a settled one. -/
def Terms.inside (t : Terms) (main : Bytes) : Terms :=
  { t with
    colors := t.debug && t.colors
    settings := put exactKey (.bool false) (put mainKey (.text main) t.settings) }

section

variable {t : Terms}

@[simp] theorem inside_limit (main : Bytes) : (t.inside main).limit = t.limit := rfl
@[simp] theorem inside_debug (main : Bytes) : (t.inside main).debug = t.debug := rfl

private theorem Terms.ofSettings_eq (h : t.Settled) :
    Terms.ofSettings t.settings = .ok { t with colors := t.debug && t.colors } := by
  simp only [Terms.ofSettings, getInt_eq h.limit, getBool_eq h.debug, bind, Except.bind]
  cases hd : t.debug with
  | true => simp [getBool_eq (h.colors hd), pure, Except.pure]
  | false => simp [pure, Except.pure]

private theorem lookup_inside
    {key : Bytes} (hm : key ≠ mainKey) (he : key ≠ exactKey) (main : Bytes) :
    (t.inside main).settings.lookup key = t.settings.lookup key := by
  rw [Terms.inside, lookup_put_of_ne he, lookup_put_of_ne hm]

theorem Terms.Settled.inside (h : t.Settled) (main : Bytes) : (t.inside main).Settled where
  main := ⟨main, by rw [Terms.inside, lookup_put_of_ne (by decide), lookup_put_self]⟩
  exact := ⟨false, lookup_put_self⟩
  limit := (lookup_inside (by decide) (by decide) main).trans h.limit
  debug := (lookup_inside (by decide) (by decide) main).trans h.debug
  colors hd := by
    have hd : t.debug = true := hd
    rw [lookup_inside (by decide) (by decide) main, h.colors hd, Terms.inside, hd, Bool.true_and]

theorem inside?_eq (h : t.Settled) (main : Bytes) : t.inside? main = .ok (t.inside main) := by
  obtain ⟨name, hname⟩ := h.main
  obtain ⟨b, hb⟩ := h.exact
  have hmain : t.settings.set mainKey (.text main) = .ok (put mainKey (.text main) t.settings) :=
    set_eq_put hname rfl
  have hkept : (put mainKey (.text main) t.settings).lookup exactKey = some (.bool b) := by
    rw [lookup_put_of_ne (by decide), hb]
  have hexact : (put mainKey (.text main) t.settings).set exactKey (.bool false) =
      .ok (t.inside main).settings := set_eq_put hkept rfl
  simp only [Terms.inside?, hmain, hexact, bind, Except.bind]
  rw [Terms.ofSettings_eq (h.inside main)]
  simp [Terms.inside]

/-- Settled terms without a limit, so no run inside of it has one either. -/
structure Terms.Unlimited (t : Terms) : Prop where
  settled : t.Settled
  limit : t.limit ≤ 0

theorem Terms.Unlimited.inside (h : t.Unlimited) (main : Bytes) : (t.inside main).Unlimited :=
  ⟨h.settled.inside main, h.limit⟩

end

/-- The limit of a run is the one that its settings held when it started. -/
theorem limit_of_ofSettings {settings : Settings} {t : Terms}
    (h : Terms.ofSettings settings = .ok t) :
    settings.getInt limitKey = .ok t.limit ∧ t.settings = settings := by
  simp only [Terms.ofSettings, bind, Except.bind] at h
  cases hlimit : settings.getInt limitKey with
  | error e => simp [hlimit] at h
  | ok limit =>
    simp only [hlimit] at h
    repeat' split at h
    all_goals cases h
    all_goals exact ⟨rfl, rfl⟩

/-- An embedded run reads its limit from the settings of the run that embeds it. -/
theorem limit_of_inside? {t u : Terms} {main : Bytes} (h : t.inside? main = .ok u) :
    t.settings.getInt limitKey = .ok u.limit ∧
      u.settings.getInt limitKey = t.settings.getInt limitKey := by
  simp only [Terms.inside?, bind, Except.bind] at h
  cases hmain : t.settings.set mainKey (.text main) with
  | error e => simp [hmain] at h
  | ok named =>
    simp only [hmain] at h
    cases hexact : named.set exactKey (.bool false) with
    | error e => simp [hexact] at h
    | ok settings =>
      simp only [hexact] at h
      obtain ⟨hlimit, rfl⟩ := limit_of_ofSettings h
      have hkept : u.settings.getInt limitKey = t.settings.getInt limitKey :=
        (getInt_of_set hexact (by decide)).trans (getInt_of_set hmain (by decide))
      exact ⟨hkept ▸ hlimit, hkept⟩

/-- What a machine is configured with stands in its settings. -/
theorem settled_terms (config : Config) : config.terms.Settled := by
  have given {key : Bytes} (hc : key ≠ colorsKey) : config.settings.lookup key =
      (put mainKey (.text config.main) (put exactKey (.bool config.exact)
        (put limitKey (.int config.limit)
          (put debugKey (.bool config.debug) config.others)))).lookup key := by
    unfold Config.settings
    split
    · exact lookup_put_of_ne hc
    · rfl
  refine ⟨⟨config.main, ?_⟩, ⟨config.exact, ?_⟩, ?_, ?_, fun hd => ?_⟩
  · exact (given (by decide)).trans lookup_put_self
  · rw [Config.terms, given (by decide), lookup_put_of_ne (by decide), lookup_put_self]
  · rw [Config.terms, given (by decide), lookup_put_of_ne (by decide),
      lookup_put_of_ne (by decide), lookup_put_self]
  · rw [Config.terms, given (by decide), lookup_put_of_ne (by decide),
      lookup_put_of_ne (by decide), lookup_put_of_ne (by decide), lookup_put_self]
  · have hd : config.debug = true := hd
    simp only [Config.terms, Config.settings, hd, if_true, lookup_put_self]

/-- The terms of a run on its own. -/
theorem settled_default : Terms.Settled {} where
  main := ⟨_, rfl⟩
  exact := ⟨_, rfl⟩
  limit := rfl
  debug := rfl
  colors := nofun

end PegMachine.Machine
