import AlgolMips.Suite
import Mathlib.Algebra.GroupWithZero.Nat

/-!
# Workers and queues

The tests of a suite run side by side. One feeder goes through the sources: it settles what needs no test and queues the
rest as tasks. Workers take tasks, test, and put their verdicts where the feeder puts the settled ones. Both queues have
room for as many entries as there are sources. A pool is what feeder, workers, queues and files are like at some moment,
and a step is one of them going on (`Step`), so a run of steps is one way in which all of this can happen.

Nothing gets lost on the way: the verdicts that are there and those that are still owed are at every moment the verdicts of
the whole plan (`Pool.Sound`). This leaves room in the queues for every send (`Pool.Sound.roomy`), some step is possible
until all workers have left (`Pool.Sound.progress`), and every step brings the end nearer (`Step.load_lt`).
-/

namespace AlgolMips.Suite

open Golden

/-! ## Sources one by one -/

/-- Assigns one source, and gives the fingerprints seen up to and with it. -/
def examine (skip : List Text) (hash : Text → Except FileFailure Text) (seen : List (Text × Text)) (source : Text) :
    Assignment × List (Text × Text) :=
  if isSkipped skip source then (.settled { file := source, status := .skip, message := "Explicitly skipped" }, seen)
  else match hash source with
    | .error f =>
      (.settled { file := source, status := .error, message := "Failed to read file for hashing: " ++ f.message }, seen)
    | .ok h =>
      match seen.lookup h with
      | some first =>
        (.settled { file := source, status := .skip, message := "Content is identical to " ++ first }, seen)
      | none => (.task source h, (h, source) :: seen)

theorem assign_cons (skip : List Text) (hash : Text → Except FileFailure Text) (seen : List (Text × Text))
    (source : Text) (rest : List Text) :
    assign skip hash seen (source :: rest) =
      (examine skip hash seen source).1 :: assign skip hash (examine skip hash seen source).2 rest := by
  rw [assign, examine]
  split
  · rfl
  · cases hash source with
    | error f => rfl
    | ok h =>
      dsimp only
      cases seen.lookup h <;> rfl

/-- Only the content of the source itself counts. -/
theorem examine_congr {skip : List Text} {hash hash' : Text → Except FileFailure Text} {seen : List (Text × Text)}
    {source : Text} (h : hash source = hash' source) : examine skip hash seen source = examine skip hash' seen source := by
  rw [examine, examine, h]

/-- The fingerprint of a source. -/
def Bench.contentHash (b : Bench) (files : FileTree) (source : Text) : Except FileFailure Text :=
  (files.read b.machine.cwd source).map b.machine.fingerprint

/-- The verdict that an assignment leads to. -/
def Bench.verdictOf (b : Bench) (files : FileTree) : Assignment → Verdict
  | .settled v => v
  | .task source hash => (b.test files source hash).1

/-! ## Pools and steps -/

/-- What a worker is doing. -/
inductive Worker where
  | idle
  | testing (source hash : Text)
  | holding (v : Verdict)
  | gone

structure Pool where
  /-- The sources that the feeder has not looked at, -/
  pending : List Text
  /-- what it has to send, -/
  outbox : Option Assignment := none
  /-- and the fingerprints that it has seen. -/
  seen : List (Text × Text) := []
  /-- Whether it has closed the tasks. -/
  closed : Bool := false
  tasks : List (Text × Text) := []
  results : List Verdict := []
  workers : List Worker
  files : FileTree

/-- A pool before anything has happened; there is always one worker. -/
def Pool.start (jobs : Int) (found : List Text) (files : FileTree) : Pool :=
  { pending := found, workers := List.replicate (max jobs 1).toNat .idle, files }

/-- One of feeder and workers goes on. A send waits for room in its queue. -/
inductive Step (b : Bench) (skip : List Text) (capacity : Nat) : Pool → Pool → Prop where
  | examine {p : Pool} {source : Text} {rest : List Text} : p.pending = source :: rest → p.outbox = none →
      Step b skip capacity p
        { p with
          pending := rest
          outbox := some (Suite.examine skip (b.contentHash p.files) p.seen source).1
          seen := (Suite.examine skip (b.contentHash p.files) p.seen source).2 }
  | settle {p : Pool} {v : Verdict} : p.outbox = some (.settled v) → p.results.length < capacity →
      Step b skip capacity p { p with outbox := none, results := p.results ++ [v] }
  | queue {p : Pool} {source hash : Text} : p.outbox = some (.task source hash) → p.tasks.length < capacity →
      Step b skip capacity p { p with outbox := none, tasks := p.tasks ++ [(source, hash)] }
  | close {p : Pool} : p.pending = [] → p.outbox = none → p.closed = false →
      Step b skip capacity p { p with closed := true }
  | take {p : Pool} {before after : List Worker} {source hash : Text} {rest : List (Text × Text)} :
      p.workers = before ++ .idle :: after → p.tasks = (source, hash) :: rest →
      Step b skip capacity p { p with workers := before ++ .testing source hash :: after, tasks := rest }
  | test {p : Pool} {before after : List Worker} {source hash : Text} :
      p.workers = before ++ .testing source hash :: after →
      Step b skip capacity p
        { p with
          workers := before ++ .holding (b.test p.files source hash).1 :: after
          files := (b.test p.files source hash).2 }
  | send {p : Pool} {before after : List Worker} {v : Verdict} :
      p.workers = before ++ .holding v :: after → p.results.length < capacity →
      Step b skip capacity p { p with workers := before ++ .idle :: after, results := p.results ++ [v] }
  | leave {p : Pool} {before after : List Worker} :
      p.workers = before ++ .idle :: after → p.tasks = [] → p.closed = true →
      Step b skip capacity p { p with workers := before ++ .gone :: after }

/-- A pool is behind another one by a number of steps. -/
inductive Run (b : Bench) (skip : List Text) (capacity : Nat) : Nat → Pool → Pool → Prop where
  | refl {p : Pool} : Run b skip capacity 0 p p
  | step {n : Nat} {p q r : Pool} : Run b skip capacity n p q → Step b skip capacity q r →
      Run b skip capacity (n + 1) p r

namespace Pool

/-- Everybody has left. -/
def Finished (p : Pool) : Prop := p.closed = true ∧ ∀ w ∈ p.workers, w = .gone

/-- Whoever has something to send finds room for it. -/
def Roomy (p : Pool) (capacity : Nat) : Prop :=
  (∀ v, p.outbox = some (.settled v) → p.results.length < capacity) ∧
  (∀ source hash, p.outbox = some (.task source hash) → p.tasks.length < capacity) ∧
  ∀ v, .holding v ∈ p.workers → p.results.length < capacity

end Pool

/-! ## Every run comes to an end -/

/-- How many steps a worker is away from leaving, if nothing is left to take. -/
def Worker.load : Worker → Nat
  | .idle => 1
  | .testing _ _ => 3
  | .holding _ => 2
  | .gone => 0

/-- A bound on the steps that a pool can still make. -/
def Pool.load (p : Pool) : Nat :=
  5 * p.pending.length + 4 * p.outbox.toList.length + 3 * p.tasks.length + (p.workers.map Worker.load).sum +
    (!p.closed).toNat

section

variable {b : Bench} {skip : List Text} {capacity : Nat} {p q : Pool}

theorem Step.load_lt (h : Step b skip capacity p q) : q.load < p.load := by
  cases h <;> simp_all [Pool.load, Worker.load] <;> omega

theorem Run.load_le {n : Nat} (h : Run b skip capacity n p q) : n + q.load ≤ p.load := by
  induction h with
  | refl => omega
  | step _ hstep ih =>
    have hlt := hstep.load_lt
    omega

end

/-! ## Nothing gets lost -/

/-- What a worker still has to do. -/
def Worker.owed : Worker → List Assignment
  | .testing source hash => [.task source hash]
  | _ => []

/-- What a worker has to send. -/
def Worker.held : Worker → List Verdict
  | .holding v => [v]
  | _ => []

/-- The verdicts that have been reached, sent or not. -/
def Pool.known (p : Pool) : List Verdict := p.results ++ p.workers.flatMap Worker.held

/-- The assignments that have not been carried out, if every source has a fixed fingerprint. -/
def Pool.owed (skip : List Text) (hash : Text → Except FileFailure Text) (p : Pool) : List Assignment :=
  p.workers.flatMap Worker.owed ++
    (p.tasks.map (fun t => .task t.1 t.2) ++ (p.outbox.toList ++ assign skip hash p.seen p.pending))

/-- What becomes of the sources, by what they hold at the start. -/
def Bench.plan (b : Bench) (skip found : List Text) (files : FileTree) : List Assignment :=
  assign skip (b.contentHash files) [] found

/-- Tests leave one another alone: whatever files the tests of a plan lead to, each source has the content and each test
the verdict that it has at the start. -/
structure Bench.Isolated (b : Bench) (skip found : List Text) (files : FileTree) (Usual : FileTree → Prop) : Prop where
  start : Usual files
  content : ∀ tree, Usual tree → ∀ source ∈ found, b.contentHash tree source = b.contentHash files source
  verdict : ∀ tree, Usual tree → ∀ source hash, .task source hash ∈ b.plan skip found files →
    (b.test tree source hash).1 = (b.test files source hash).1
  keeps : ∀ tree, Usual tree → ∀ source hash, .task source hash ∈ b.plan skip found files →
    Usual (b.test tree source hash).2

/-- What holds of a pool at every moment. -/
structure Pool.Sound (b : Bench) (skip found : List Text) (files : FileTree) (Usual : FileTree → Prop) (p : Pool) :
    Prop where
  usual : Usual p.files
  unread : p.pending <:+ found
  planned : p.owed skip (b.contentHash files) ⊆ b.plan skip found files
  /-- The verdicts that are there and those that are owed are those of the plan. -/
  whole : (p.known ++ (p.owed skip (b.contentHash files)).map (b.verdictOf files)).Perm
    ((b.plan skip found files).map (b.verdictOf files))
  closing : p.closed = true → p.pending = [] ∧ p.outbox = none
  leaving : .gone ∈ p.workers → p.closed = true ∧ p.tasks = []
  crew : p.workers ≠ []

section

variable {b : Bench} {skip found : List Text} {files : FileTree} {Usual : FileTree → Prop} {capacity : Nat} {p q : Pool}

theorem Pool.sound_start (hisolated : b.Isolated skip found files Usual) (jobs : Int) :
    (Pool.start jobs found files).Sound b skip found files Usual := by
  have howed : (Pool.start jobs found files).owed skip (b.contentHash files) = b.plan skip found files := by
    simp [Pool.owed, Pool.start, Worker.owed, Bench.plan]
  have hknown : (Pool.start jobs found files).known = [] := by
    simp [Pool.known, Pool.start, Worker.held]
  constructor
  · exact hisolated.start
  · exact List.suffix_refl _
  · rw [howed]
    exact List.Subset.refl _
  · rw [howed, hknown]
    exact .refl _
  · nofun
  · simp [Pool.start]
  · have hcrew : (max jobs 1).toNat ≠ 0 := by omega
    simpa only [Pool.start, ne_eq, List.replicate_eq_nil_iff] using hcrew

/-- What a step does to what is known and owed: nothing, or it carries one assignment out. -/
theorem Step.moves (hisolated : b.Isolated skip found files Usual) (hp : p.Sound b skip found files Usual)
    (h : Step b skip capacity p q) :
    (q.known.Perm p.known ∧ (q.owed skip (b.contentHash files)).Perm (p.owed skip (b.contentHash files))) ∨
      ∃ a, q.known.Perm (b.verdictOf files a :: p.known) ∧
        (p.owed skip (b.contentHash files)).Perm (a :: q.owed skip (b.contentHash files)) := by
  cases h with
  | @examine source rest hpending houtbox =>
    have hcontent := hisolated.content p.files hp.usual source (hp.unread.subset (by simp [hpending]))
    refine .inl ⟨.refl _, .of_eq ?_⟩
    rw [examine_congr hcontent]
    simp [Pool.owed, hpending, houtbox, assign_cons]
  | @settle v houtbox _ =>
    refine .inr ⟨.settled v, by simp [Pool.known, Bench.verdictOf], ?_⟩
    simp only [Pool.owed, houtbox, Option.toList_some, Option.toList_none, List.singleton_append, List.nil_append]
    exact (List.perm_middle.append_left _).trans List.perm_middle
  | @queue source hash houtbox _ =>
    exact .inl ⟨.refl _, .of_eq (by simp [Pool.owed, houtbox])⟩
  | close => exact .inl ⟨.refl _, .refl _⟩
  | @take before after source hash rest hworkers htasks =>
    refine .inl ⟨.of_eq (by simp [Pool.known, hworkers, Worker.held]), ?_⟩
    -- the task goes from the front of its queue to a worker in the middle
    simp only [Pool.owed, hworkers, htasks, Worker.owed, List.flatMap_append, List.flatMap_cons, List.append_assoc,
      List.map_cons, List.cons_append, List.nil_append]
    exact List.perm_middle.symm.append_left _
  | @test before after source hash hworkers =>
    have hplanned : .task source hash ∈ b.plan skip found files :=
      hp.planned (by simp [Pool.owed, hworkers, Worker.owed])
    refine .inr ⟨.task source hash, ?_, ?_⟩
    · rw [Bench.verdictOf, ← hisolated.verdict p.files hp.usual source hash hplanned]
      simp only [Pool.known, hworkers, Worker.held, List.flatMap_append, List.flatMap_cons, List.cons_append,
        List.nil_append]
      exact (List.perm_middle.append_left _).trans List.perm_middle
    · simp only [Pool.owed, hworkers, Worker.owed, List.flatMap_append, List.flatMap_cons, List.append_assoc,
        List.cons_append, List.nil_append]
      exact List.perm_middle
  | @send before after v hworkers _ =>
    refine .inl ⟨?_, .of_eq (by simp [Pool.owed, hworkers, Worker.owed])⟩
    simp only [Pool.known, hworkers, Worker.held, List.flatMap_append, List.flatMap_cons, List.append_assoc,
      List.cons_append, List.nil_append]
    exact List.perm_middle.symm.append_left _
  | @leave before after hworkers _ _ =>
    exact .inl ⟨.of_eq (by simp [Pool.known, hworkers, Worker.held]),
      .of_eq (by simp [Pool.owed, hworkers, Worker.owed])⟩

/-- The workers after a step are those before it, with at most one of them changed. -/
theorem Step.gone_cases (h : Step b skip capacity p q) (hgone : .gone ∈ q.workers) :
    .gone ∈ p.workers ∨ p.closed = true ∧ p.tasks = [] := by
  cases h with
  | examine | settle | queue | close => exact .inl hgone
  | take hworkers _ | test hworkers | send hworkers _ => exact .inl (by simpa [hworkers] using hgone)
  | leave hworkers htasks hclosed => exact .inr ⟨hclosed, htasks⟩

theorem Step.sound (hisolated : b.Isolated skip found files Usual) (h : Step b skip capacity p q)
    (hp : p.Sound b skip found files Usual) : q.Sound b skip found files Usual := by
  have hmoves := h.moves hisolated hp
  constructor
  · cases h with
    | @test before after source hash hworkers =>
      exact hisolated.keeps p.files hp.usual source hash (hp.planned (by simp [Pool.owed, hworkers, Worker.owed]))
    | _ => exact hp.usual
  · cases h with
    | examine hpending _ => exact (List.suffix_cons _ _).trans (hpending ▸ hp.unread)
    | _ => exact hp.unread
  · rcases hmoves with ⟨-, howed⟩ | ⟨a, -, howed⟩
    · exact fun x hx => hp.planned (howed.subset hx)
    · exact fun x hx => hp.planned (howed.symm.subset (List.mem_cons_of_mem a hx))
  · refine List.Perm.trans ?_ hp.whole
    rcases hmoves with ⟨hknown, howed⟩ | ⟨a, hknown, howed⟩
    · exact hknown.append (howed.map _)
    · refine (hknown.append_right _).trans (List.perm_middle.symm.trans ?_)
      exact (howed.symm.map (b.verdictOf files)).append_left p.known
  · intro hclosed
    cases h with
    | examine hpending _ => exact absurd ((hp.closing hclosed).1.symm.trans hpending) (by simp)
    | settle houtbox _ | queue houtbox _ => exact ⟨(hp.closing hclosed).1, rfl⟩
    | close hpending houtbox _ => exact ⟨hpending, houtbox⟩
    | take | test | send | leave => exact hp.closing hclosed
  · intro hgone
    obtain ⟨hclosed, htasks⟩ : p.closed = true ∧ p.tasks = [] := (h.gone_cases hgone).elim hp.leaving id
    cases h with
    | queue houtbox _ => exact absurd ((hp.closing hclosed).2.symm.trans houtbox) (by simp)
    | close => exact ⟨rfl, htasks⟩
    | take _ hcons => exact absurd (htasks.symm.trans hcons) (by simp)
    | examine | settle | test | send | leave => exact ⟨hclosed, htasks⟩
  · cases h with
    | examine | settle | queue | close => exact hp.crew
    | take | test | send | leave => simp

theorem Run.sound (hisolated : b.Isolated skip found files Usual) {n : Nat} (h : Run b skip capacity n p q)
    (hp : p.Sound b skip found files Usual) : q.Sound b skip found files Usual := by
  induction h with
  | refl => exact hp
  | step _ hstep ih => exact hstep.sound hisolated (ih hp)

/-! ## Room and progress -/

theorem length_assign (skip : List Text) (hash : Text → Except FileFailure Text) (seen : List (Text × Text))
    (found : List Text) : (assign skip hash seen found).length = found.length := by
  induction found generalizing seen with
  | nil => rfl
  | cons source rest ih => rw [assign_cons, List.length_cons, List.length_cons, ih]

namespace Pool.Sound

theorem length_eq (hp : p.Sound b skip found files Usual) :
    p.known.length + (p.owed skip (b.contentHash files)).length = found.length := by
  have hlength := hp.whole.length_eq
  rwa [List.length_append, List.length_map, List.length_map, Bench.plan, length_assign] at hlength

/-- What is sent is known or owed before, and nothing is there twice. -/
theorem roomy (hp : p.Sound b skip found files Usual) : p.Roomy found.length := by
  have hlength := hp.length_eq
  simp only [Pool.known, Pool.owed, List.length_append, List.length_map] at hlength
  refine ⟨fun v houtbox => ?_, fun source hash houtbox => ?_, fun v hmem => ?_⟩
  · rw [houtbox, Option.toList_some, List.length_singleton] at hlength
    omega
  · rw [houtbox, Option.toList_some, List.length_singleton] at hlength
    omega
  · have hheld : 0 < (p.workers.flatMap Worker.held).length :=
      List.length_pos_of_mem (List.mem_flatMap.2 ⟨.holding v, hmem, List.mem_singleton_self v⟩)
    omega

/-- As long as somebody is left somebody can go on. -/
theorem progress (hp : p.Sound b skip found files Usual) : p.Finished ∨ ∃ q, Step b skip found.length p q := by
  obtain ⟨hsettle, hqueue, hsend⟩ := hp.roomy
  cases houtbox : p.outbox with
  | some a =>
    cases a with
    | settled v => exact .inr ⟨_, .settle houtbox (hsettle v houtbox)⟩
    | task source hash => exact .inr ⟨_, .queue houtbox (hqueue source hash houtbox)⟩
  | none =>
    cases hpending : p.pending with
    | cons source rest => exact .inr ⟨_, .examine hpending houtbox⟩
    | nil =>
      cases hclosed : p.closed with
      | false => exact .inr ⟨_, .close hpending houtbox hclosed⟩
      | true =>
        by_cases hall : ∀ w ∈ p.workers, w = .gone
        · exact .inl ⟨hclosed, hall⟩
        · -- a worker that is not gone can go on, whatever it does
          simp only [Classical.not_forall] at hall
          obtain ⟨w, hmem, hw⟩ := hall
          obtain ⟨before, after, hworkers⟩ := List.append_of_mem hmem
          cases w with
          | idle =>
            cases htasks : p.tasks with
            | nil => exact .inr ⟨_, .leave hworkers htasks hclosed⟩
            | cons t rest => exact .inr ⟨_, .take hworkers htasks⟩
          | testing source hash => exact .inr ⟨_, .test hworkers⟩
          | holding v => exact .inr ⟨_, .send hworkers (hsend v hmem)⟩
          | gone => exact absurd rfl hw

/-- In the end the results are the verdicts of the plan. -/
theorem results_perm (hp : p.Sound b skip found files Usual) (hfinished : p.Finished) :
    p.results.Perm ((b.plan skip found files).map (b.verdictOf files)) := by
  obtain ⟨hclosed, hall⟩ := hfinished
  obtain ⟨hpending, houtbox⟩ := hp.closing hclosed
  obtain ⟨w, hw⟩ := List.exists_mem_of_ne_nil _ hp.crew
  have htasks : p.tasks = [] := (hp.leaving (hall w hw ▸ hw)).2
  have hheld : p.workers.flatMap Worker.held = [] :=
    List.flatMap_eq_nil_iff.2 fun w hw => by rw [hall w hw]; rfl
  have howed : p.workers.flatMap Worker.owed = [] :=
    List.flatMap_eq_nil_iff.2 fun w hw => by rw [hall w hw]; rfl
  have hwhole := hp.whole
  simpa [Pool.known, Pool.owed, hheld, howed, htasks, houtbox, hpending, assign] using hwhole

end Pool.Sound

/-- Every run can be continued to the end. -/
theorem Run.exists_finished (hisolated : b.Isolated skip found files Usual) (hp : p.Sound b skip found files Usual)
    {n : Nat} (h : Run b skip found.length n p q) : ∃ m r, Run b skip found.length m p r ∧ r.Finished := by
  induction hload : q.load using Nat.strongRecOn generalizing n q with
  | ind load ih =>
    rcases (h.sound hisolated hp).progress with hfinished | ⟨r, hstep⟩
    · exact ⟨n, q, h, hfinished⟩
    · exact ih r.load (hload ▸ hstep.load_lt) (h.step hstep) rfl

end

end AlgolMips.Suite
