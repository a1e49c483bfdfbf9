import AlgolMips.Command.Compile
import AlgolMips.Proofs.Spelling
import Mathlib.Data.List.Nodup
import Mathlib.Logic.Function.Basic

/-!
# Flags and their variables

A program hands each of its flags a variable, and what the command line gives for a flag is stored there. A set of flags
keeps the values with the flags instead. That makes no difference as long as no two flags share a variable: a command line
that is read by way of the variables leaves in them what it leaves in the flags (`Cells.view_parseRest`).

A set refuses a flag whose name it has, so in every set that is put together flag by flag the names differ
(`FlagSet.Apart`). Variables can then be handed out by name, one for each flag (`FlagSet.parse_eq_cells`).
-/

namespace AlgolMips.Options

/-! ## Reading by way of variables -/

/-- The variables of a program, and the one that it hands to the flag with a name. -/
structure Cells where
  var : Text → Nat
  store : Nat → FlagValue

namespace Cells

/-- A set of flags with the values that stand in the variables. -/
def view (c : Cells) (s : FlagSet) : FlagSet :=
  { s with flags := s.flags.map fun f => { f with value := c.store (c.var f.name) } }

/-- Stores a value in the variable of a flag and notes that the flag was set. -/
def assign (c : Cells) (s : FlagSet) (f : Flag) (t : Text) : Except FlagError (Cells × FlagSet) :=
  match FlagSet.assigned (c.store (c.var f.name)) t with
  | .error e => .error e
  | .ok v =>
    .ok ({ c with store := Function.update c.store (c.var f.name) v }, { s with visited := s.visited ++ [f.name] })

/-- Reads the words that are left. -/
def parseRest (c : Cells) (s : FlagSet) : List Text → (Cells × FlagSet) × Option FlagError
  | [] => ((c, s), none)
  | word :: rest =>
    match (c.view s).read word with
    | .argument => parseRest c { s with args := s.args ++ [word] } rest
    | .terminator => ((c, { s with args := s.args ++ rest }), none)
    | .mistake e => ((c, s), some e)
    | .value f t =>
      match c.assign s f t with
      | .ok next => parseRest next.1 next.2 rest
      | .error e => ((c, s), some e)
    | .needsValue f spelling =>
      match rest with
      | [] => ((c, s), some (.needsArgument spelling))
      | t :: rest =>
        match c.assign s f t with
        | .ok next => parseRest next.1 next.2 rest
        | .error e => ((c, s), some e)

/-- No two flags of a set share a variable. -/
def Apart (c : Cells) (s : FlagSet) : Prop :=
  ∀ f ∈ s.flags, ∀ g ∈ s.flags, c.var f.name = c.var g.name → f.name = g.name

end Cells

/-- The flag that a word names. -/
def FlagSet.Reading.flag? : FlagSet.Reading → Option Flag
  | value f _ => some f
  | needsValue f _ => some f
  | _ => none

namespace FlagSet

variable {s : FlagSet} {f : Flag}

theorem mem_of_readNamed {dashes body : Text} (h : (s.readNamed dashes body).flag? = some f) : f ∈ s.flags := by
  unfold readNamed at h
  dsimp only at h
  split at h
  · cases h
  · split at h
    · cases h
    · next g hlookup =>
      have hg : f = g := by split at h <;> (try split at h) <;> exact (Option.some.inj h).symm
      exact hg ▸ (lookup_eq_some hlookup).1

theorem mem_of_readShort {short rest : Text} (h : (s.readShort short rest).flag? = some f) : f ∈ s.flags := by
  unfold readShort at h
  split at h
  · cases h
  · next g hlookup =>
    have hg : f = g := by split at h <;> (try split at h) <;> exact (Option.some.inj h).symm
    obtain ⟨name, -, hname⟩ := Option.bind_eq_some_iff.1 hlookup
    exact hg ▸ (lookup_eq_some hname).1

/-- A word names a flag of the set, if any. -/
theorem mem_of_read {word : Text} (h : (s.read word).flag? = some f) : f ∈ s.flags := by
  unfold read at h
  split at h
  · split at h
    · split at h
      · cases h
      · exact mem_of_readNamed h
    · split at h
      · exact mem_of_readNamed h
      · exact mem_of_readShort h
  · cases h

end FlagSet

namespace Cells

variable {c : Cells} {s : FlagSet} {f : Flag}

/-- A flag is given a value by way of its variable as it is without one, for no other flag sees the variable. -/
theorem view_assign (h : c.Apart s) (hf : f ∈ (c.view s).flags) (t : Text) :
    (c.view s).assign f t = (c.assign s f t).map fun next => next.1.view next.2 := by
  obtain ⟨g, hg, rfl⟩ := List.mem_map.1 hf
  simp only [FlagSet.assign, assign]
  cases hassigned : FlagSet.assigned (c.store (c.var g.name)) t with
  | error e => rfl
  | ok v =>
    refine congrArg (fun flags => Except.ok { s with flags, visited := s.visited ++ [g.name] }) ?_
    simp only [view, List.map_map]
    refine List.map_congr_left fun g' hg' => ?_
    by_cases hname : g'.name = g.name
    · simp [hname]
    · have hvar : c.var g'.name ≠ c.var g.name := fun heq => hname (h g' hg' g hg heq)
      simp [hname, Function.update_of_ne hvar]

theorem Apart.assign (h : c.Apart s) {t : Text} {next : Cells × FlagSet} (hnext : c.assign s f t = .ok next) :
    next.1.Apart next.2 := by
  unfold Cells.assign at hnext
  split at hnext
  · cases hnext
  · cases hnext
    exact h

/-- A command line that is read by way of the variables leaves in them what it leaves in the flags. -/
theorem view_parseRest (h : c.Apart s) (words : List Text) :
    (c.view s).parseRest words = ((c.parseRest s words).1.1.view (c.parseRest s words).1.2, (c.parseRest s words).2) := by
  -- A word names a flag of the set or none, so each word is read alike and its value goes to one variable only.
  fun_induction c.parseRest s words with
  | case1 c s => rfl
  | case2 c s word rest hread ih =>
    rw [FlagSet.parseRest, hread]
    exact ih h
  | case3 c s word rest hread =>
    rw [FlagSet.parseRest, hread]
    rfl
  | case4 c s word rest e hread => rw [FlagSet.parseRest, hread]
  | case5 c s word rest f t hread next hnext ih =>
    have hf := FlagSet.mem_of_read (f := f) (congrArg FlagSet.Reading.flag? hread)
    rw [FlagSet.parseRest, hread]
    simp only [view_assign h hf, hnext]
    exact ih (h.assign hnext)
  | case6 c s word rest f t hread e hnext =>
    have hf := FlagSet.mem_of_read (f := f) (congrArg FlagSet.Reading.flag? hread)
    rw [FlagSet.parseRest, hread]
    simp only [view_assign h hf, hnext]
    rfl
  | case7 c s word f spelling hread => rw [FlagSet.parseRest, hread]
  | case8 c s word f spelling hread t rest next hnext ih =>
    have hf := FlagSet.mem_of_read (f := f) (congrArg FlagSet.Reading.flag? hread)
    rw [FlagSet.parseRest, hread]
    simp only [view_assign h hf, hnext]
    exact ih (h.assign hnext)
  | case9 c s word f spelling hread t rest e hnext =>
    have hf := FlagSet.mem_of_read (f := f) (congrArg FlagSet.Reading.flag? hread)
    rw [FlagSet.parseRest, hread]
    simp only [view_assign h hf, hnext]
    rfl

end Cells

/-! ## One variable for each flag -/

namespace FlagSet

variable {s : FlagSet}

/-- The names of the flags differ. -/
def Apart (s : FlagSet) : Prop := (s.flags.map Flag.name).Nodup

theorem apart_empty : ({} : FlagSet).Apart := List.nodup_nil

/-- A flag is added only under a name of its own. -/
theorem Apart.add (h : s.Apart) (f : Flag) : (s.add f).1.Apart := by
  by_cases hempty : f.name.isEmpty
  · rw [FlagSet.add, if_pos hempty]
    exact h
  by_cases hknown : (s.lookup f.name).isSome
  · rw [FlagSet.add, if_neg hempty, if_pos hknown]
    exact h
  have hnew : f.name ∉ s.flags.map Flag.name := by
    intro hmem
    obtain ⟨g, hg, hname⟩ := List.mem_map.1 hmem
    exact hknown (List.find?_isSome.2 ⟨g, hg, by simpa using hname⟩)
  have hflags : (s.add f).1.flags = s.flags ++ [f] := by
    rw [FlagSet.add, if_neg hempty, if_neg hknown]
    dsimp only
    split
    · rfl
    · split <;> rfl
  rw [Apart, hflags, List.map_append, List.nodup_append]
  refine ⟨h, List.nodup_singleton _, ?_⟩
  rintro _ hg _ hf rfl
  exact hnew (List.mem_singleton.1 hf ▸ hg)

theorem Apart.addAll (h : s.Apart) (flags : List Flag) : (s.addAll flags).1.Apart := by
  induction flags generalizing s with
  | nil => exact h
  | cons f rest ih =>
    have hadd := h.add f
    rw [FlagSet.addAll]
    split
    · next s' hs => exact ih (by rwa [hs] at hadd)
    · next s' clash hs => rwa [hs] at hadd

theorem Apart.addGroup (h : s.Apart) (g : FlagGroup) : (s.addGroup g).1.Apart := by
  have hall := h.addAll (g.entries.flatMap GroupEntry.flags)
  rw [FlagSet.addGroup]
  split
  · next s' hs =>
    rw [hs] at hall
    exact hall
  · next s' clash hs => rwa [hs] at hall

/-- The variables that are handed out in the order of the flags, with the values that the flags have. -/
def cells (s : FlagSet) : Cells where
  var name := (s.flags.map Flag.name).idxOf name
  store n := ((s.flags.map Flag.value)[n]?).getD (.switch false)

theorem apart_cells (s : FlagSet) : s.cells.Apart s := by
  intro f hf g hg heq
  exact List.idxOf_inj (List.mem_map_of_mem hf) |>.1 heq

theorem view_cells (h : s.Apart) : s.cells.view s = s := by
  have hflags : (s.cells.view s).flags = s.flags := by
    refine List.ext_getElem (by simp [Cells.view]) fun i hi hi' => ?_
    have hname : i < (s.flags.map Flag.name).length := by simpa using hi'
    have hindex : (s.flags.map Flag.name).idxOf s.flags[i].name = i := by
      rw [← List.getElem_map Flag.name (h := hname)]
      exact h.idxOf_getElem i hname
    have hvalue : s.cells.store (s.cells.var s.flags[i].name) = s.flags[i].value := by
      simp only [cells, hindex]
      simp [hi']
    simp only [Cells.view, List.getElem_map, hvalue]
  exact congrArg (fun flags => { s with flags }) hflags

/-- To read a command line into variables of their own is to read it into the flags. -/
theorem parse_eq_cells (h : s.Apart) (words : List Text) :
    let read := s.cells.parseRest { s with args := [], visited := [] } words
    s.parse words = (read.1.1.view read.1.2, read.2) := by
  intro read
  let started : FlagSet := { s with args := [], visited := [] }
  have hread := Cells.view_parseRest (apart_cells started) words
  rw [view_cells (s := started) h] at hread
  exact hread

end FlagSet

/-- Two switches that share a variable are on together, and two that do not are not. -/
example :
    let s : FlagSet := { flags := [.ofSwitch "a" "" false "", .ofSwitch "b" "" false ""] }
    let shared : Cells := ⟨fun _ => 0, fun _ => .switch false⟩
    let read := shared.parseRest s ["--a"]
    (read.1.1.view read.1.2).isOn "b" = true ∧ (s.parse ["--a"]).1.isOn "b" = false := by
  decide

end AlgolMips.Options

namespace AlgolMips

open Options

theorem Settings.apart_withFlags (s : Settings) {fs : FlagSet} (h : fs.Apart) : (s.withFlags fs).1.Apart := by
  have hgeneral := h.addAll generalFlags
  unfold withFlags
  split
  · next hs => rwa [hs] at hgeneral
  · next hs =>
    rw [hs] at hgeneral
    have hwarnings := hgeneral.addGroup s.warningGroup
    split
    · next hs' => rwa [hs'] at hwarnings
    · next hs' =>
      rw [hs'] at hwarnings
      exact hwarnings.addGroup _

/-- The compiler has a variable for each of its flags. -/
theorem Command.apart_flagSet (s : Settings) : ((flagSet s).add helpFlag).1.Apart :=
  (s.apart_withFlags (FlagSet.apart_empty.addAll ownFlags)).add helpFlag

end AlgolMips
