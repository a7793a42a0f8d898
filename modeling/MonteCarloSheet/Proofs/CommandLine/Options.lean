import MonteCarloSheet.CommandLine.Options

/-! Options that are read.

Every option that is given has a value by `valueOf`, a whole number or an empty list, and
the others keep their defaults (`typed_of_read`). -/
namespace MonteCarloSheet.CommandLine

/-- A whole number, or the empty list that a separator gives. -/
def IsValue (g : Given) : Prop :=
  (∃ n, g = .whole n) ∨ g = .list []

theorem isValue_of_valueOf {text : String} {g : Given} (h : valueOf text = some g) :
    IsValue g := by
  rw [valueOf] at h
  split at h
  · exact .inr (Option.some.inj h).symm
  · obtain ⟨n, -, whole⟩ := Option.map_eq_some_iff.1 h
    exact .inl ⟨n, whole.symm⟩

/-- The options are what values and defaults give. -/
structure Options.Typed (o : Options) : Prop where
  samples : IsValue o.samples
  seed : o.seed = .nothing ∨ IsValue o.seed
  decimals : IsValue o.decimals

theorem Options.typed_default : ({} : Options).Typed :=
  ⟨.inl ⟨_, rfl⟩, .inl rfl, .inl ⟨_, rfl⟩⟩

namespace Reader
variable {r : Reader}

theorem typed_takeDefinition (h : r.options.Typed) (text : String) :
    (r.takeDefinition text).options.Typed := by
  rw [takeDefinition]
  split <;> exact ⟨h.samples, h.seed, h.decimals⟩

theorem typed_takeSeparator (h : r.options.Typed) (followed : Bool) :
    (r.takeSeparator followed).options.Typed := by
  rw [takeSeparator]
  split <;> exact h

theorem typed_setValue (h : r.options.Typed) {flag : Flag} {text : String} {r' : Reader}
    (set : r.setValue flag text = some r') : r'.options.Typed := by
  rw [setValue] at set
  obtain ⟨value, given, set⟩ := Option.bind_eq_some_iff.1 set
  have value := isValue_of_valueOf given
  cases flag with
  | help => cases set
  | samples => cases set; exact ⟨value, h.seed, h.decimals⟩
  | seed => cases set; exact ⟨h.samples, .inr value, h.decimals⟩
  | decimals => cases set; exact ⟨h.samples, h.seed, value⟩
  | verbose => cases set

end Reader

theorem typed_of_readArguments {arguments : List Argument} {r : Reader} {o : Options} :
    r.options.Typed → readArguments arguments r = .options o → o.Typed := by
  -- an option that ends a run of definitions leaves the values as they are
  fun_induction readArguments arguments r with
  | case1 r =>
    intro h accepted
    rw [Reader.finish] at accepted
    split at accepted
    · cases accepted
    · cases accepted
      exact h
  | case2 text rest r ih => exact fun h => ih (Reader.typed_takeDefinition h text)
  | case3 rest r ih => exact fun h => ih (Reader.typed_takeSeparator h _)
  | case4 rest r ih => exact fun h => ih h
  | case7 letters rest r flags known help ih => exact fun h => ih h
  | case9 flag text rest r takes r' set ih =>
    exact fun h => ih (Reader.typed_setValue (r := r.endRun) h set)
  | case13 flag r other takes text rest r' set ih =>
    exact fun h => ih (Reader.typed_setValue (r := r.endRun) h set)
  | case15 flag rest r other takes ih => exact fun h => ih h
  | _ => exact fun _ absurd => by cases absurd

theorem typed_of_read {arguments : List String} {o : Options}
    (accepted : read arguments = .options o) : o.Typed := by
  rw [read] at accepted
  split at accepted
  · cases accepted
  · exact typed_of_readArguments Options.typed_default accepted

end MonteCarloSheet.CommandLine
