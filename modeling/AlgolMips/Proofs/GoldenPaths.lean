import AlgolMips.Golden.Summary
import AlgolMips.Proofs.Texts
import Mathlib.Data.List.Basic

/-!
# Where golden results are stored

A clean absolute path is a list of names. Beside their sources the golden results of different sources have different paths.
In a directory for all of them they are told apart by the last names of the sources only (`golden_paths_meet_iff`).
-/

namespace AlgolMips

namespace Path

/-! ## Names -/

/-- What something may be called in a directory. -/
structure IsName (n : Text) : Prop where
  ne_empty : n ≠ ""
  ne_dot : n ≠ "."
  ne_dots : n ≠ ".."
  slash_not_mem : slash ∉ n.bytes

/-- The absolute path through some names. -/
def rooted (names : List Text) : Text := "/" ++ Text.join "/" names

/-! ## Cleaning -/

/-- What a part of a path does to the parts before it, the last of which is the first. -/
def cleanStep (root : Bool) (done : List Text) (p : Text) : List Text :=
  if p.isEmpty || p = "." then done
  else if p = ".." then
    match done with
    | [] => if root then [] else [p]
    | d :: before => if d = ".." then p :: d :: before else before
  else p :: done

theorem cleanParts_eq_foldl (root : Bool) (done ps : List Text) :
    cleanParts root done ps = ps.foldl (cleanStep root) done := by
  fun_induction cleanParts root done ps <;> simp_all [cleanStep]

theorem cleanParts_append (root : Bool) (done front back : List Text) :
    cleanParts root done (front ++ back) = cleanParts root (cleanParts root done front) back := by
  simp only [cleanParts_eq_foldl, List.foldl_append]

theorem cleanParts_empty (root : Bool) (done ps : List Text) :
    cleanParts root done (("" : Text) :: ps) = cleanParts root done ps := by
  simp only [cleanParts_eq_foldl]
  rfl

theorem cleanStep_of_isName {n : Text} (h : IsName n) (root : Bool) (done : List Text) :
    cleanStep root done n = n :: done := by
  simp [cleanStep, Text.isEmpty_iff, h.ne_empty, h.ne_dot, h.ne_dots]

/-- At the root nothing but names is left. -/
theorem isName_of_mem_cleanStep {done : List Text} {p : Text} (hdone : ∀ n ∈ done, IsName n) (hp : slash ∉ p.bytes) :
    ∀ n ∈ cleanStep true done p, IsName n := by
  unfold cleanStep
  split
  · exact hdone
  · next hkept =>
    split
    · cases done with
      | nil => exact hdone
      | cons d before =>
        obtain ⟨hd, hbefore⟩ := List.forall_mem_cons.1 hdone
        simpa [hd.ne_dots] using hbefore
    · next hdots =>
      simp only [Bool.or_eq_true, Text.isEmpty_iff, decide_eq_true_eq, not_or] at hkept
      exact List.forall_mem_cons.2 ⟨⟨hkept.1, hkept.2, hdots, hp⟩, hdone⟩

theorem isName_of_mem_cleanParts {done ps : List Text} (hdone : ∀ n ∈ done, IsName n) (hps : ∀ p ∈ ps, slash ∉ p.bytes) :
    ∀ n ∈ cleanParts true done ps, IsName n := by
  rw [cleanParts_eq_foldl]
  induction ps generalizing done with
  | nil => exact hdone
  | cons p rest ih =>
    obtain ⟨hp, hrest⟩ := List.forall_mem_cons.1 hps
    exact ih (isName_of_mem_cleanStep hdone hp) hrest

theorem cleanParts_names (root : Bool) (done : List Text) {names : List Text} (h : ∀ n ∈ names, IsName n) :
    cleanParts root done names = names.reverse ++ done := by
  rw [cleanParts_eq_foldl]
  induction names generalizing done with
  | nil => rfl
  | cons n rest ih =>
    obtain ⟨hn, hrest⟩ := List.forall_mem_cons.1 h
    rw [List.foldl_cons, cleanStep_of_isName hn, ih _ hrest]
    simp

/-- What an absolute path has before its parts, and other paths have not. -/
def root (p : Text) : Text := if isAbsolute p then "/" else ""

/-- The parts that are left of a path when it is cleaned. -/
def parts (p : Text) : List Text := (cleanParts (isAbsolute p) [] (p.split slash)).reverse

/-- A clean absolute path goes through names. -/
theorem exists_names {p : Text} (habsolute : isAbsolute p) (hclean : clean p = p) :
    ∃ names, (∀ n ∈ names, IsName n) ∧ p = rooted names := by
  refine ⟨parts p, fun n hn => ?_, ?_⟩
  · rw [parts, habsolute, List.mem_reverse] at hn
    exact isName_of_mem_cleanParts (by simp) (fun _ => Text.not_mem_of_mem_split) n hn
  · rw [clean, habsolute] at hclean
    rw [rooted, parts, habsolute]
    exact hclean.symm

theorem isAbsolute_rooted (names : List Text) : isAbsolute (rooted names) = true := rfl

theorem parts_rooted {names : List Text} (h : ∀ n ∈ names, IsName n) : parts (rooted names) = names := by
  have hsplit : (rooted names).split slash = ("" : Text) :: (Text.join "/" names).split slash :=
    Text.split_append_sep "" (Text.join "/" names)
  rw [parts, hsplit, isAbsolute_rooted, cleanParts_empty]
  by_cases hnames : names = []
  · rw [hnames]
    rfl
  · have hback : (Text.join "/" names).split slash = names :=
      Text.split_join_of_not_mem hnames fun n hn => (h n hn).slash_not_mem
    rw [hback, cleanParts_names true [] h, List.append_nil, List.reverse_reverse]

/-! ## The last name -/

theorem takeWhile_reverse_append {d n : Text} (h : slash ∉ n.bytes) :
    (d ++ "/" ++ n).bytes.reverse.takeWhile (· != slash) = n.bytes.reverse := by
  have hall : ∀ b ∈ n.bytes.reverse, (b != slash) = true := fun b hb =>
    bne_iff_ne.2 fun heq => h (heq ▸ List.mem_reverse.1 hb)
  have hslash : ("/" : Text).bytes = [slash] := rfl
  rw [Text.bytes_append, List.reverse_append, List.takeWhile_append_of_pos hall, Text.bytes_append, hslash]
  simp

theorem split_append_name {d n : Text} (h : slash ∉ n.bytes) : split (d ++ "/" ++ n) = (d ++ "/", n) := by
  have hlength : (d ++ "/" ++ n).bytes.length - n.bytes.length = (d ++ "/").bytes.length := by
    rw [Text.bytes_append, List.length_append, Nat.add_sub_cancel]
  rw [split, takeWhile_reverse_append h, List.reverse_reverse, hlength, Text.bytes_append (d ++ "/"), List.take_left]

theorem base_append_name {d n : Text} (h : IsName n) : base (d ++ "/" ++ n) = n := by
  obtain ⟨last, rest, hlast⟩ := List.exists_cons_of_ne_nil (l := n.bytes.reverse) fun hnil =>
    h.ne_empty (congrArg Text.mk (List.reverse_eq_nil_iff.1 hnil))
  have hslash : last ≠ slash := by
    rintro rfl
    exact h.slash_not_mem (List.mem_reverse.1 (hlast ▸ List.mem_cons_self))
  have hreverse : (d ++ "/" ++ n).bytes.reverse = last :: (rest ++ (d ++ "/").bytes.reverse) := by
    rw [Text.bytes_append, List.reverse_append, hlast, List.cons_append]
  have hkept : (d ++ "/" ++ n).bytes.reverse.dropWhile (· == slash) = (d ++ "/" ++ n).bytes.reverse := by
    rw [hreverse, List.dropWhile_cons_of_neg (by simpa using hslash)]
  have hnonempty : (d ++ "/" ++ n).isEmpty = false := by
    rw [← Bool.not_eq_true, Text.isEmpty_iff, Text.append_eq_empty_iff]
    exact fun hempty => h.ne_empty hempty.2
  rw [base, hnonempty, if_neg Bool.false_ne_true]
  simp only [hkept, takeWhile_reverse_append h.slash_not_mem, List.reverse_reverse]
  rw [hreverse]
  rfl

/-- An absolute path goes through the names before its last one. -/
theorem exists_rooted_concat {names : List Text} (h : ∀ n ∈ names, IsName n) (n : Text) :
    ∃ d : Text, rooted (names ++ [n]) = d ++ "/" ++ n ∧ clean (d ++ "/") = rooted names := by
  by_cases hnames : names = []
  · rw [hnames]
    exact ⟨"", rfl, rfl⟩
  · refine ⟨rooted names, ?_, ?_⟩
    · rw [rooted, Text.join_concat _ _ hnames, rooted]
      simp only [Text.append_assoc]
    · have hsplit : (rooted names ++ "/").split slash = (rooted names).split slash ++ [("" : Text)] := by
        rw [← Text.append_empty (rooted names ++ "/")]
        exact Text.split_append_sep (rooted names) ""
      have hparts : (cleanParts true [] ((rooted names).split slash)).reverse = names := parts_rooted h
      have hlast : ∀ done, cleanParts true done [("" : Text)] = done := fun done => cleanParts_empty true done []
      rw [clean, show isAbsolute (rooted names ++ "/") = true from rfl, hsplit, cleanParts_append, hlast, hparts]
      rfl

theorem base_rooted {names : List Text} (h : ∀ n ∈ names, IsName n) :
    base (rooted names) = names.getLast?.getD "/" := by
  rcases List.eq_nil_or_concat' names with rfl | ⟨front, n, rfl⟩
  · rfl
  · obtain ⟨hfront, hn⟩ := List.forall_mem_append.1 h
    obtain ⟨d, hd, -⟩ := exists_rooted_concat hfront n
    rw [hd, base_append_name (hn n List.mem_cons_self), List.getLast?_concat]
    rfl

theorem dir_rooted {names : List Text} (h : ∀ n ∈ names, IsName n) : dir (rooted names) = rooted names.dropLast := by
  rcases List.eq_nil_or_concat' names with rfl | ⟨front, n, rfl⟩
  · rfl
  · obtain ⟨hfront, hn⟩ := List.forall_mem_append.1 h
    obtain ⟨d, hd, hclean⟩ := exists_rooted_concat hfront n
    rw [dir, hd, split_append_name (hn n List.mem_cons_self).slash_not_mem, hclean, List.dropLast_concat]

/-! ## One name further -/

/-- A path that leads from any place to what has a name there. -/
def LeadsTo (x n : Text) : Prop := ∀ root done, cleanParts root done (x.split slash) = n :: done

theorem leadsTo_name {n : Text} (h : IsName n) : LeadsTo n n := by
  intro root done
  rw [Text.split_of_not_mem h.slash_not_mem, cleanParts_names root done (by simpa using h)]
  rfl

theorem mem_cleanStep {root : Bool} {done : List Text} {p n : Text} (h : n ∈ cleanStep root done p) : n ∈ done ∨ n = p := by
  unfold cleanStep at h
  split at h
  · exact .inl h
  split at h
  · cases done with
    | nil => cases root <;> simp_all
    | cons d before =>
      by_cases hd : d = ".."
      · simpa [hd, or_comm, or_assoc] using h
      · exact .inl (List.mem_cons_of_mem _ (by simpa [hd] using h))
  · exact (List.mem_cons.1 h).symm

theorem mem_cleanParts {root : Bool} {done ps : List Text} {n : Text} (h : n ∈ cleanParts root done ps) :
    n ∈ done ∨ n ∈ ps := by
  rw [cleanParts_eq_foldl] at h
  induction ps generalizing done with
  | nil => exact .inl h
  | cons p rest ih =>
    rcases ih h with hstep | hrest
    · exact (mem_cleanStep hstep).imp_right fun heq => List.mem_cons.2 (.inl heq)
    · exact .inr (List.mem_cons_of_mem _ hrest)

theorem slash_not_mem_of_mem_parts {p n : Text} (h : n ∈ parts p) : slash ∉ n.bytes :=
  Text.not_mem_of_mem_split ((mem_cleanParts (List.mem_reverse.1 h)).resolve_left List.not_mem_nil)

theorem isAbsolute_append {d : Text} (hd : d ≠ "") (x : Text) : isAbsolute (d ++ x) = isAbsolute d := by
  obtain ⟨b, rest, hb⟩ := List.exists_cons_of_ne_nil (l := d.bytes) fun hnil => hd (congrArg Text.mk hnil)
  rw [isAbsolute, isAbsolute, Text.bytes_append, hb]
  rfl

/-- Behind a directory come its parts and the name that is led to. -/
theorem join_leadsTo {d x n : Text} (hd : d ≠ "") (hn : n ≠ "") (hx : LeadsTo x n) :
    join [d, x] = root d ++ Text.join "/" (parts d ++ [n]) := by
  have hjoin : join [d, x] = clean (d ++ "/" ++ x) := by
    have hkept : [d, x].dropWhile Text.isEmpty = [d, x] :=
      List.dropWhile_cons_of_neg fun hempty => hd (Text.isEmpty_iff.1 hempty)
    rw [join, hkept]
    rfl
  have hroot : isAbsolute (d ++ "/" ++ x) = isAbsolute d := by
    rw [Text.append_assoc, isAbsolute_append hd]
  have hparts : (cleanParts (isAbsolute d) [] ((d ++ "/" ++ x).split slash)).reverse = parts d ++ [n] := by
    have hsplit : (d ++ "/" ++ x).split slash = d.split slash ++ x.split slash := Text.split_append_sep d x
    rw [hsplit, cleanParts_append, hx, List.reverse_cons]
    rfl
  have hbody : Text.join "/" (parts d ++ [n]) ≠ "" := by
    by_cases hnone : parts d = []
    · rw [hnone]
      exact hn
    · rw [Text.join_concat _ _ hnone]
      exact fun hempty => hn (Text.append_eq_empty_iff.1 hempty).2
  rw [hjoin, clean, hroot, hparts, root]
  split
  · rfl
  · exact if_neg fun hempty => hbody (Text.isEmpty_iff.1 hempty)

/-- A name is read off the path that leads to it from a directory. -/
theorem eq_of_join_parts {d n m : Text} (h : Text.join "/" (parts d ++ [n]) = Text.join "/" (parts d ++ [m]))
    (hn : slash ∉ n.bytes) (hm : slash ∉ m.bytes) : n = m := by
  have hback : ∀ {n : Text}, slash ∉ n.bytes → (Text.join "/" (parts d ++ [n])).split slash = parts d ++ [n] := fun hn =>
    Text.split_join_of_not_mem (by simp)
      (List.forall_mem_append.2 ⟨fun _ => slash_not_mem_of_mem_parts, by simpa using hn⟩)
  have hlists := (hback hn).symm.trans ((congrArg (Text.split slash) h).trans (hback hm))
  simpa using hlists

theorem rooted_inj {names names' : List Text} (h : ∀ n ∈ names, IsName n) (h' : ∀ n ∈ names', IsName n)
    (heq : rooted names = rooted names') : names = names' := by
  rw [← parts_rooted h, heq, parts_rooted h']

/-- A clean absolute path is known by the directory it lies in and its last part. -/
theorem names_inj {names names' : List Text} (h : ∀ n ∈ names, IsName n) (h' : ∀ n ∈ names', IsName n)
    (hdir : names.dropLast = names'.dropLast) (hbase : base (rooted names) = base (rooted names')) : names = names' := by
  have hroot : ¬ IsName "/" := fun hname => hname.slash_not_mem List.mem_cons_self
  rw [base_rooted h, base_rooted h'] at hbase
  rcases List.eq_nil_or_concat' names with rfl | ⟨front, n, rfl⟩
  · rcases List.eq_nil_or_concat' names' with rfl | ⟨front', n', rfl⟩
    · rfl
    · rw [List.getLast?_concat] at hbase
      obtain rfl : "/" = n' := hbase
      exact absurd (h' _ (by simp)) hroot
  · rw [List.getLast?_concat] at hbase
    rw [List.dropLast_concat] at hdir
    rcases List.eq_nil_or_concat' names' with rfl | ⟨front', n', rfl⟩
    · obtain rfl : n = "/" := hbase
      exact absurd (h _ (by simp)) hroot
    · rw [List.getLast?_concat] at hbase
      obtain rfl : n = n' := hbase
      rw [hdir, List.dropLast_concat]

end Path

namespace Golden

open AlgolMips.Path (IsName LeadsTo slash parts rooted)

/-- What the golden result of a source is called, by the last part of its path. -/
def storedName (base : Text) : Text := if base = "/" then ".json" else "." ++ base ++ ".json"

theorem isName_storedName {b : Text} (h : b = "/" ∨ IsName b) : IsName (storedName b) := by
  unfold storedName
  split
  · exact ⟨by decide, by decide, by decide, by decide⟩
  · next hroot =>
    have hb := h.resolve_left hroot
    have hsize : ∀ t : Text, t.size < 6 → "." ++ b ++ ".json" ≠ t := by
      rintro t ht rfl
      simp only [Text.size_append, show ("." : Text).size = 1 from rfl, show (".json" : Text).size = 5 from rfl] at ht
      omega
    refine ⟨hsize "" (by decide), hsize "." (by decide), hsize ".." (by decide), ?_⟩
    simp only [Text.bytes_append, List.mem_append, not_or]
    exact ⟨⟨by decide, hb.slash_not_mem⟩, by decide⟩

theorem leadsTo_storedName {b : Text} (h : b = "/" ∨ IsName b) : LeadsTo ("." ++ b ++ ".json") (storedName b) := by
  have hname := isName_storedName h
  unfold storedName at hname ⊢
  split
  · next hroot =>
    subst hroot
    intro root done
    rw [Path.cleanParts_eq_foldl]
    rfl
  · next hroot =>
    rw [if_neg hroot] at hname
    exact Path.leadsTo_name hname

theorem storedName_inj {b c : Text} (h : storedName b = storedName c) : b = c := by
  have hroot : ∀ {t : Text}, (".json" : Text) ≠ "." ++ t ++ ".json" := fun {t} heq => by
    have hsize := congrArg Text.size heq
    simp only [Text.size_append, show ("." : Text).size = 1 from rfl, show (".json" : Text).size = 5 from rfl] at hsize
    omega
  unfold storedName at h
  split at h <;> split at h
  · simp_all
  · exact absurd h hroot
  · exact absurd h.symm hroot
  · exact Text.append_left_cancel (Text.append_right_cancel h)

section Rooted

variable {names : List Text}

theorem base_cases (h : ∀ n ∈ names, IsName n) :
    Path.base (rooted names) = "/" ∨ IsName (Path.base (rooted names)) := by
  rw [Path.base_rooted h]
  cases hlast : names.getLast? with
  | none => exact .inl rfl
  | some n => exact .inr (h n (List.mem_of_getLast? hlast))

/-- In a directory for all of them. -/
theorem goldenPath_within {dir : Text} (hdir : dir ≠ "") (h : ∀ n ∈ names, IsName n) :
    goldenPath dir (rooted names) =
      Path.root dir ++ Text.join "/" (parts dir ++ [storedName (Path.base (rooted names))]) := by
  have hbase := base_cases h
  rw [goldenPath, if_neg fun hempty => hdir (Text.isEmpty_iff.1 hempty)]
  exact Path.join_leadsTo hdir (isName_storedName hbase).ne_empty (leadsTo_storedName hbase)

/-- Beside the source. -/
theorem goldenPath_beside (h : ∀ n ∈ names, IsName n) :
    goldenPath "" (rooted names) = rooted (names.dropLast ++ [storedName (Path.base (rooted names))]) := by
  have hbase := base_cases h
  have hfront : ∀ n ∈ names.dropLast, IsName n := fun n hn => h n (List.dropLast_subset names hn)
  have hdir : rooted names.dropLast ≠ "" := fun hempty => nomatch (Text.append_eq_empty_iff.1 hempty).1
  rw [goldenPath, if_pos (by rfl), Path.dir_rooted h,
    Path.join_leadsTo hdir (isName_storedName hbase).ne_empty (leadsTo_storedName hbase), Path.parts_rooted hfront]
  rfl

/-- The names on the way to a golden result beside its source. -/
theorem isName_beside (h : ∀ n ∈ names, IsName n) :
    ∀ n ∈ names.dropLast ++ [storedName (Path.base (rooted names))], IsName n :=
  List.forall_mem_append.2
    ⟨fun n hn => h n (List.dropLast_subset names hn), by simpa using isName_storedName (base_cases h)⟩

end Rooted

/-- Two sources share the path of their golden results exactly if they are one source, or if all golden results go to one
directory and the sources have the same last name. -/
theorem golden_paths_meet_iff (dir : Text) {p q : Text} (hp : Path.isAbsolute p) (hpclean : Path.clean p = p)
    (hq : Path.isAbsolute q) (hqclean : Path.clean q = q) :
    goldenPath dir p = goldenPath dir q ↔ p = q ∨ dir ≠ "" ∧ Path.base p = Path.base q := by
  obtain ⟨names, hnames, rfl⟩ := Path.exists_names hp hpclean
  obtain ⟨names', hnames', rfl⟩ := Path.exists_names hq hqclean
  by_cases hdir : dir = ""
  · subst hdir
    rw [or_iff_left fun h => h.1 rfl]
    refine ⟨fun h => ?_, fun h => by rw [h]⟩
    rw [goldenPath_beside hnames, goldenPath_beside hnames'] at h
    obtain ⟨hfront, hname⟩ :=
      List.append_inj' (Path.rooted_inj (isName_beside hnames) (isName_beside hnames') h) rfl
    rw [Path.names_inj hnames hnames' hfront (storedName_inj (List.singleton_inj.1 hname))]
  · have hslash : ∀ {names}, (∀ n ∈ names, IsName n) → slash ∉ (storedName (Path.base (rooted names))).bytes := fun h =>
      (isName_storedName (base_cases h)).slash_not_mem
    rw [goldenPath_within hdir hnames, goldenPath_within hdir hnames']
    refine ⟨fun h => ?_, fun h => ?_⟩
    · have hname := Path.eq_of_join_parts (Text.append_left_cancel h) (hslash hnames) (hslash hnames')
      exact .inr ⟨hdir, storedName_inj hname⟩
    · rcases h with heq | ⟨-, hbase⟩
      · rw [heq]
      · rw [hbase]

/-- Sources with one name in two directories have golden results of their own beside them. -/
theorem golden_paths_apart : goldenPath "" "/a/x.alw" ≠ goldenPath "" "/b/x.alw" := by
  have hmeet := golden_paths_meet_iff "" (p := "/a/x.alw") (q := "/b/x.alw") (by decide) (by decide) (by decide) (by decide)
  exact fun h => absurd (hmeet.1 h) (by decide)

/-- In a directory for all of them there is one golden result for both. -/
theorem golden_path_shared :
    let p : Text := "/a/x.alw"
    let q : Text := "/b/x.alw"
    Path.isAbsolute p ∧ Path.clean p = p ∧ Path.isAbsolute q ∧ Path.clean q = q ∧ p ≠ q ∧
      goldenPath "g" p = "g/.x.alw.json" ∧ goldenPath "g" q = "g/.x.alw.json" := by
  decide

end Golden

end AlgolMips
