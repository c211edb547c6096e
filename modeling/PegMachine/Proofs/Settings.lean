import PegMachine.Settings

namespace PegMachine.Settings

variable {key other : Bytes} {setting : Setting} {settings : Settings}

@[simp] theorem lookup_put_self : (put key setting settings).lookup key = some setting := by
  induction settings with
  | nil => simp [put]
  | cons entry settings ih =>
    unfold put
    split
    · simp
    · next hne =>
      split
      · simp
      · have hkey : (key == entry.1) = false := by simpa using Ne.symm hne
        rw [List.lookup_cons, hkey]
        exact ih

theorem lookup_put_of_ne (h : other ≠ key) :
    (put key setting settings).lookup other = settings.lookup other := by
  have hother : (other == key) = false := by simpa using h
  induction settings with
  | nil => simp [put, List.lookup_cons, hother]
  | cons entry settings ih =>
    unfold put
    split
    · next heq =>
      subst heq
      rw [List.lookup_cons, List.lookup_cons, hother]
    · split
      · rw [List.lookup_cons, hother]
      · rw [List.lookup_cons, List.lookup_cons, ih]

/-- A setting may be changed to another of its type. -/
theorem set_eq_put {old : Setting} (h : settings.lookup key = some old)
    (htype : old.type = setting.type) : settings.set key setting = .ok (put key setting settings) := by
  rw [set, h]
  exact if_pos htype

/-- Setting one key leaves what is read under another. -/
theorem getInt_of_set {changed : Settings} (h : settings.set key setting = .ok changed)
    (hne : other ≠ key) : changed.getInt other = settings.getInt other := by
  have hput : changed = put key setting settings := by
    unfold set at h
    split at h
    · split at h
      · exact (Except.ok.inj h).symm
      · cases h
    · exact (Except.ok.inj h).symm
  rw [hput, getInt, getInt, get, get, lookup_put_of_ne hne]

theorem getBool_eq {b : Bool} (h : settings.lookup key = some (.bool b)) :
    settings.getBool key = .ok b := by
  simp [getBool, get, h, Setting.type, bind, Except.bind]

theorem getInt_eq {n : Int} (h : settings.lookup key = some (.int n)) :
    settings.getInt key = .ok n := by
  simp [getInt, get, h, Setting.type, bind, Except.bind]

end PegMachine.Settings
