import CppInfra.Timer.RbtTimerExpire
import CppInfra.Timer.RbtreeRuns

set_option autoImplicit false

namespace CppInfra.Timer.RbtreeTimer

open RedBlackTree Rbtree RbtTimer Words Transition

-- `memset(te, 0, sizeof(timer_entry_t))`; 0 is also the colour black.
def memsetZero (memory : Memory) (node : Nat) : Option Memory := do
  let memory ← clear memory node
  setColor memory node .black

def initTimer (memory : Memory) (sentinel : Nat) : Option Memory := ngxRbtreeInit memory sentinel

-- `node` is what `malloc` gave, `currentTime` what the clock reads.
def addTimer (turns : Nat) (memory : Memory) (node msec currentTime : Nat) : Option Memory := do
  let memory ← memsetZero memory node
  let memory ← setKey memory node (add 32 msec currentTime)
  ngxRbtreeInsert Rbtree.ngxRbtreeInsertTimerValue turns memory node

def delTimer (turns : Nat) (memory : Memory) (node : Nat) : Option Memory := ngxRbtreeDelete turns memory node

inductive Phase where
  | idle
  | expiring (now : Nat)
  | handling (now node : Nat)
  deriving DecidableEq, Repr

def Phase.handled : Phase → Option Nat
  | .handling _ x => some x
  | _ => none

structure Timers where
  memory : Memory
  phase : Phase
  ran : List Entry

-- A handler may add and delete timers; `look` is the part of a turn before the call of the handler.
inductive Event where
  | addTimer (node msec currentTime : Nat)
  | delTimer (node : Nat)
  | expireTimer (currentTime : Nat)
  | look
  | handlerDone
  deriving DecidableEq, Repr

def look (turns now : Nat) (t : Timers) : Option Timers :=
  if t.memory.root = t.memory.sentinel then some { t with phase := .idle }
  else do
    let node ← Rbtree.ngxRbtreeMin turns t.memory t.memory.root
    let key ← deref t.memory.key node
    if key > now then some { t with phase := .idle }
    else some { t with phase := .handling now node, ran := t.ran ++ [⟨node, key⟩] }

def step (turns : Nat) (t : Timers) : Event → Option Timers
  | .addTimer node msec currentTime => do
      let memory ← addTimer turns t.memory node msec currentTime
      some { t with memory := memory }
  | .delTimer node => do
      let memory ← delTimer turns t.memory node
      some { t with memory := memory }
  | .expireTimer now => if t.phase = .idle then some { t with phase := .expiring now } else none
  | .look =>
      match t.phase with
      | .expiring now => look turns now t
      | _ => none
  | .handlerDone =>
      match t.phase with
      | .handling now node => do
          let memory ← ngxRbtreeDelete turns t.memory node
          some { t with memory := memory, phase := .expiring now }
      | _ => none

structure Plan where
  entries : List Entry
  phase : Phase
  ran : List Entry
  added : List Entry
  deleted : List Entry
  deriving DecidableEq, Repr

def timerOf (entry : Entry) : TimerEntry := ⟨entry.key, entry.node⟩

def timersOf (entries : List Entry) : List TimerEntry := entries.map timerOf

instance narrowDecidable (now : Nat) (order : List TimerEntry) : Decidable (Narrow now order) :=
  inferInstanceAs (Decidable (∀ entry ∈ order, _))

def without (entries : List Entry) (node : Nat) : List Entry := entries.filter fun entry => entry.node ≠ node

-- A timer is added with a key less than 2 ^ 30 away from the clock, as all the others are, at an address that is
-- free, and deleted while it is in the tree and its handler has not been called.
def Plan.step (sentinel : Nat) (plan : Plan) : Event → Option Plan
  | .addTimer node msec currentTime =>
      let entry : Entry := ⟨node, add 32 msec currentTime⟩
      if node ≠ 0 ∧ node ≠ sentinel ∧ node ∉ plan.entries.map Entry.node ∧ currentTime < 2 ^ 32 ∧
          Narrow currentTime (timersOf (entry :: plan.entries)) then
        some { plan with entries := place timerLess plan.entries entry, added := plan.added ++ [entry] }
      else none
  | .delTimer node =>
      if node ∈ plan.entries.map Entry.node ∧ plan.phase.handled ≠ some node then
        some { plan with
          entries := without plan.entries node
          deleted := plan.deleted ++ plan.entries.filter fun entry => entry.node = node }
      else none
  | .expireTimer now => if plan.phase = .idle then some { plan with phase := .expiring now } else none
  | .look =>
      match plan.phase with
      | .expiring now =>
          match plan.entries with
          | [] => some { plan with phase := .idle }
          | entry :: _ =>
              if entry.key > now then some { plan with phase := .idle }
              else some { plan with phase := .handling now entry.node, ran := plan.ran ++ [entry] }
      | _ => none
  | .handlerDone =>
      match plan.phase with
      | .handling now node => some { plan with entries := without plan.entries node, phase := .expiring now }
      | _ => none

def waiting (phase : Phase) (entries : List Entry) : List Entry :=
  match phase.handled with
  | some x => without entries x
  | none => entries

structure Plan.Inv (plan : Plan) : Prop where
  placed : Placed (timersOf plan.entries)
  distinct : (plan.entries.map Entry.node).Nodup
  handled : ∀ x ∈ plan.phase.handled, x ∈ plan.entries.map Entry.node
  accounted : plan.added.Perm (plan.ran ++ plan.deleted ++ waiting plan.phase plan.entries)

theorem placed_iff {entries : List Entry} : Placed (timersOf entries) ↔
    entries.Pairwise fun first second => timerLess second.key first.key = false := by
  rw [Placed, timersOf, List.pairwise_map]
  rfl

theorem monotone_of_narrow {entries : List Entry} {now : Nat} (entry : Entry) (placed : Placed (timersOf entries))
    (word : now < 2 ^ 32) (narrow : Narrow now (timersOf (entry :: entries))) :
    Monotone timerLess entry.key entries := by
  have inside (other : Entry) (member : other ∈ entries) : timerOf other ∈ timersOf (entry :: entries) :=
    List.mem_map_of_mem (List.mem_cons_of_mem _ member)
  have here : timerOf entry ∈ timersOf (entry :: entries) := List.mem_map_of_mem (List.mem_cons_self ..)
  refine (placed_iff.mp placed).imp_of_mem ?_
  intro first second memberFirst memberSecond kept goes
  have early := (narrow.compares word here (inside first memberFirst)).mp goes
  have order := mt (narrow.compares word (inside second memberSecond) (inside first memberFirst)).mpr
    (Bool.eq_false_iff.mp kept)
  exact (narrow.compares word here (inside second memberSecond)).mpr (by omega)

theorem place_placed {entries : List Entry} {entry : Entry} {now : Nat} (placed : Placed (timersOf entries))
    (word : now < 2 ^ 32) (narrow : Narrow now (timersOf (entry :: entries))) :
    Placed (timersOf (place timerLess entries entry)) := by
  have here : timerOf entry ∈ timersOf (entry :: entries) := List.mem_map_of_mem (List.mem_cons_self ..)
  refine placed_iff.mpr (place_pairwise (placed_iff.mp placed) (monotone_of_narrow entry placed word narrow) ?_ ?_)
  · intro other _ stays
    exact stays
  · intro other member goes
    have there : timerOf other ∈ timersOf (entry :: entries) := List.mem_map_of_mem (List.mem_cons_of_mem _ member)
    have early := (narrow.compares word here there).mp goes
    exact Bool.eq_false_iff.mpr fun back => by
      have late := (narrow.compares word there here).mp back
      omega

theorem place_perm (less : Nat → Nat → Bool) (entries : List Entry) (entry : Entry) :
    (place less entries entry).Perm (entry :: entries) := by
  have whole := List.takeWhile_append_dropWhile (p := fun other => !less entry.key other.key) (l := entries)
  rw [place]
  refine List.perm_middle.trans ?_
  rw [whole]

theorem without_perm (entries : List Entry) (node : Nat) :
    ((entries.filter fun entry => entry.node = node) ++ without entries node).Perm entries := by
  have parts := List.filter_append_perm (fun entry : Entry => decide (entry.node = node)) entries
  simpa [without] using parts

theorem without_of_notMem {entries : List Entry} {node : Nat} (absent : node ∉ entries.map Entry.node) :
    without entries node = entries := by
  refine List.filter_eq_self.mpr ?_
  intro entry member
  have apart : entry.node ≠ node := by
    rintro rfl
    exact absent (List.mem_map_of_mem member)
  exact decide_eq_true apart

theorem without_head {entry : Entry} {rest : List Entry} (distinct : ((entry :: rest).map Entry.node).Nodup) :
    without (entry :: rest) entry.node = rest := by
  rw [without, List.filter_cons_of_neg (by simp)]
  exact without_of_notMem (List.nodup_cons.mp distinct).1

theorem distinct_without {entries : List Entry} (distinct : (entries.map Entry.node).Nodup) (node : Nat) :
    ((without entries node).map Entry.node).Nodup :=
  distinct.sublist (List.filter_sublist.map _)

theorem placed_without {entries : List Entry} (placed : Placed (timersOf entries)) (node : Nat) :
    Placed (timersOf (without entries node)) :=
  List.Pairwise.sublist (List.filter_sublist.map _) placed

theorem mem_without {entries : List Entry} {node other : Nat} (member : other ∈ entries.map Entry.node)
    (apart : other ≠ node) : other ∈ (without entries node).map Entry.node := by
  obtain ⟨entry, inside, rfl⟩ := List.mem_map.mp member
  exact List.mem_map_of_mem (List.mem_filter.mpr ⟨inside, decide_eq_true apart⟩)

theorem without_comm (entries : List Entry) (node other : Nat) :
    without (without entries node) other = without (without entries other) node := by
  simp only [without, List.filter_filter, Bool.and_comm]

theorem waiting_quiet {phase : Phase} (quiet : phase.handled = none) (entries : List Entry) :
    waiting phase entries = entries := by
  rw [waiting, quiet]

theorem waiting_place {phase : Phase} {entries : List Entry} {entry : Entry}
    (apart : ∀ x ∈ phase.handled, entry.node ≠ x) :
    (waiting phase (place timerLess entries entry)).Perm (entry :: waiting phase entries) := by
  have moved := place_perm timerLess entries entry
  rw [waiting, waiting]
  cases handled : phase.handled with
  | none => exact moved
  | some x =>
      have front : without (entry :: entries) x = entry :: without entries x :=
        List.filter_cons_of_pos (decide_eq_true (apart x handled))
      exact front ▸ moved.filter _

theorem waiting_without {phase : Phase} {node : Nat} (entries : List Entry) (apart : phase.handled ≠ some node) :
    (entries.filter (fun entry => entry.node = node) ++ waiting phase (without entries node)).Perm
      (waiting phase entries) := by
  rw [waiting, waiting]
  cases handled : phase.handled with
  | none => exact without_perm entries node
  | some x =>
      have other : node ≠ x := by
        rintro rfl
        exact apart handled
      have same : entries.filter (fun entry => entry.node = node) =
          (without entries x).filter fun entry => entry.node = node := by
        rw [without, List.filter_filter]
        apply List.filter_congr
        intro entry _
        by_cases this : entry.node = node <;> simp [this, other]
      dsimp only
      rw [same, without_comm]
      exact without_perm (without entries x) node

variable {plan plan' : Plan} {sentinel turns : Nat}

theorem Plan.Inv.addTimer (inv : plan.Inv) (entry : Entry) {currentTime : Nat}
    (absent : entry.node ∉ plan.entries.map Entry.node) (word : currentTime < 2 ^ 32)
    (narrow : Narrow currentTime (timersOf (entry :: plan.entries))) :
    Plan.Inv { plan with entries := place timerLess plan.entries entry, added := plan.added ++ [entry] } := by
  have moved := (place_perm timerLess plan.entries entry).map Entry.node
  refine ⟨place_placed inv.placed word narrow, ?_, ?_, ?_⟩
  · exact moved.nodup_iff.mpr (List.nodup_cons.mpr ⟨absent, inv.distinct⟩)
  · intro x handled
    exact moved.mem_iff.mpr (List.mem_cons_of_mem _ (inv.handled x handled))
  · have apart : ∀ x ∈ plan.phase.handled, entry.node ≠ x := by
      rintro x handled rfl
      exact absent (inv.handled _ handled)
    calc plan.added ++ [entry]
      _ |>.Perm (entry :: plan.added) := List.perm_append_singleton entry plan.added
      _ |>.Perm (entry :: (plan.ran ++ plan.deleted ++ waiting plan.phase plan.entries)) := inv.accounted.cons entry
      _ |>.Perm (plan.ran ++ plan.deleted ++ entry :: waiting plan.phase plan.entries) := List.perm_middle.symm
      _ |>.Perm _ := (waiting_place apart).symm.append_left _

theorem Plan.Inv.delTimer (inv : plan.Inv) {node : Nat} (free : plan.phase.handled ≠ some node) :
    Plan.Inv { plan with
      entries := without plan.entries node
      deleted := plan.deleted ++ plan.entries.filter fun entry => entry.node = node } := by
  refine ⟨placed_without inv.placed node, distinct_without inv.distinct node, ?_, ?_⟩
  · intro x handled
    have apart : x ≠ node := by
      rintro rfl
      exact free handled
    exact mem_without (inv.handled x handled) apart
  · have moved := (waiting_without plan.entries free).symm.append_left (plan.ran ++ plan.deleted)
    refine inv.accounted.trans ?_
    simpa only [List.append_assoc] using moved

theorem Plan.Inv.handle (inv : plan.Inv) {entry : Entry} {rest : List Entry} {now : Nat}
    (quiet : plan.phase.handled = none) (entries : plan.entries = entry :: rest) :
    Plan.Inv { plan with phase := .handling now entry.node, ran := plan.ran ++ [entry] } := by
  have distinct := inv.distinct
  rw [entries] at distinct
  refine ⟨inv.placed, inv.distinct, ?_, ?_⟩
  · rintro _ ⟨⟩
    rw [entries]
    exact List.mem_cons_self ..
  · have after : waiting (.handling now entry.node) plan.entries = rest := entries ▸ without_head distinct
    have accounted := inv.accounted
    rw [waiting_quiet quiet, entries] at accounted
    rw [after]
    refine accounted.trans ?_
    simpa only [List.append_assoc, List.cons_append, List.nil_append] using List.perm_middle.append_left plan.ran

theorem Plan.Inv.handlerDone (inv : plan.Inv) {now node : Nat} (phase : plan.phase = .handling now node) :
    Plan.Inv { plan with entries := without plan.entries node, phase := .expiring now } := by
  have accounted := inv.accounted
  rw [phase] at accounted
  exact ⟨placed_without inv.placed node, distinct_without inv.distinct node, nofun, accounted⟩

theorem Plan.Inv.quiet (inv : plan.Inv) {phase : Phase} (before : plan.phase.handled = none)
    (after : phase.handled = none) : Plan.Inv { plan with phase := phase } := by
  have accounted := inv.accounted
  rw [waiting_quiet before] at accounted
  refine ⟨inv.placed, inv.distinct, ?_, ?_⟩
  · intro x handled
    rw [after] at handled
    cases handled
  · rw [waiting_quiet after]
    exact accounted

theorem zeroed_represents {memory : Memory} {entries : List Entry} {tree : RbTree Nat} {node : Nat}
    (represents : Represents memory entries tree) (real : node ≠ 0) (inner : node ≠ memory.sentinel)
    (absent : node ∉ entries.map Entry.node) :
    ∃ memory', memsetZero memory node = some memory' ∧ Represents memory' entries tree ∧
      memory'.sentinel = memory.sentinel := by
  rw [represents.nodes] at absent
  have notHere (z : Nat) (member : z ∈ tree.toList) : z ≠ node := ne_of_notMem member absent
  refine ⟨(cleared memory node).withColor node .black, ?_, ⟨?_, represents.redBlack, ?_⟩, rfl⟩
  · rw [memsetZero, clear_eq real]
    exact setColor_of_ne _ _ real
  · have after := cleared_stored represents.stored absent
    refine after.congr rfl rfl (fun _ _ _ => rfl) ?_ fun _ _ => rfl
    intro z member
    refine Function.update_of_ne ?_ _ _
    rcases List.mem_cons.mp member with rfl | inside
    · exact inner.symm
    · exact notHere z inside
  · rw [← represents.entries]
    apply List.map_congr_left
    intro z member
    have kept : ((cleared memory node).withColor node .black).key z = memory.key z :=
      Function.update_of_ne (notHere z member) _ _
    rw [kept]

theorem addTimer_represents {memory : Memory} {entries : List Entry} {tree : RbTree Nat}
    {node msec currentTime : Nat} (represents : Represents memory entries tree) (real : node ≠ 0)
    (inner : node ≠ memory.sentinel) (absent : node ∉ entries.map Entry.node)
    (monotone : Monotone timerLess (add 32 msec currentTime) entries) (enough : entries.length < turns) :
    ∃ memory' tree', addTimer turns memory node msec currentTime = some memory' ∧
      Represents memory' (place timerLess entries ⟨node, add 32 msec currentTime⟩) tree' ∧
      memory'.sentinel = memory.sentinel := by
  obtain ⟨middle, zeroed, clean, sentinel⟩ := zeroed_represents represents real inner absent
  obtain ⟨memory', tree', inserted, after, same⟩ := insert_represents clean real (sentinel ▸ inner) absent monotone
    enough
  refine ⟨memory', tree', ?_, after, same.trans sentinel⟩
  rw [addTimer, zeroed, Option.bind_eq_bind, Option.bind_some, setKey, if_neg real]
  exact inserted

theorem look_empty {t : Timers} {tree : RbTree Nat} (now : Nat) (represents : Represents t.memory [] tree) :
    look turns now t = some { t with phase := .idle } := by
  have leaf : tree = .leaf := by
    cases tree with
    | leaf => rfl
    | node color left x right =>
        have length := represents.length
        simp [RbTree.toList] at length
  rw [look, if_pos (represents.stored.root_eq_sentinel.mpr leaf)]

theorem look_first {t : Timers} {tree : RbTree Nat} {entry : Entry} {rest : List Entry} (now : Nat)
    (represents : Represents t.memory (entry :: rest) tree) (enough : rest.length < turns) :
    look turns now t =
      if entry.key > now then some { t with phase := .idle }
      else some { t with phase := .handling now entry.node, ran := t.ran ++ [entry] } := by
  have length := represents.length
  have deep := height_le_length tree
  rw [List.length_cons] at length
  have order := represents.entries
  have shape : tree ≠ .leaf := by
    rintro rfl
    cases length
  have min := ngxRbtreeMin_root represents.stored shape (show tree.height ≤ turns by omega)
  rw [look, if_neg (mt represents.stored.root_eq_sentinel.mp shape), min]
  cases nodes : tree.toList with
  | nil =>
      rw [nodes] at length
      cases length
  | cons x others =>
      rw [entriesOf, nodes, List.map_cons] at order
      obtain ⟨rfl, -⟩ := List.cons.inj order
      have real : x ≠ 0 := (represents.stored.proper x (by rw [RedBlackTree.plug, nodes]; simp)).1
      simp only [List.head?_cons, Option.bind_eq_bind, Option.bind_some, deref_of_ne _ real]

structure Kept (turns sentinel : Nat) (later : List Event) (t : Timers) (plan : Plan) : Prop where
  represents : ∃ tree, Represents t.memory plan.entries tree
  sentinel : t.memory.sentinel = sentinel
  phase : t.phase = plan.phase
  ran : t.ran = plan.ran
  inv : plan.Inv
  enough : plan.entries.length + later.length < turns

theorem length_without (entries : List Entry) (node : Nat) : (without entries node).length ≤ entries.length :=
  List.length_filter_le ..

variable {t : Timers} {rest : List Event}

theorem add_kept {node msec currentTime : Nat}
    (kept : Kept turns sentinel (.addTimer node msec currentTime :: rest) t plan)
    (allowed : plan.step sentinel (.addTimer node msec currentTime) = some plan') :
    ∃ t', step turns t (.addTimer node msec currentTime) = some t' ∧ Kept turns sentinel rest t' plan' := by
  obtain ⟨⟨tree, represents⟩, rfl, phase, ran, inv, enough⟩ := kept
  rw [List.length_cons] at enough
  simp only [Plan.step] at allowed
  obtain ⟨⟨real, inner, absent, word, narrow⟩, same⟩ := Option.ite_none_right_eq_some.mp allowed
  obtain rfl := Option.some.inj same
  obtain ⟨memory', tree', done, after, sentinel⟩ := addTimer_represents represents real inner absent
    (monotone_of_narrow ⟨node, add 32 msec currentTime⟩ inv.placed word narrow)
    (show plan.entries.length < turns by omega)
  refine ⟨{ t with memory := memory' }, ?_, ⟨tree', after⟩, sentinel, phase, ran,
    inv.addTimer ⟨node, add 32 msec currentTime⟩ absent word narrow, ?_⟩
  · simp only [step, done, Option.bind_eq_bind, Option.bind_some]
  · simp only [length_place]
    omega

theorem delete_kept {node : Nat} (kept : Kept turns sentinel (.delTimer node :: rest) t plan)
    (allowed : plan.step sentinel (.delTimer node) = some plan') :
    ∃ t', step turns t (.delTimer node) = some t' ∧ Kept turns sentinel rest t' plan' := by
  obtain ⟨⟨tree, represents⟩, rfl, phase, ran, inv, enough⟩ := kept
  rw [List.length_cons] at enough
  simp only [Plan.step] at allowed
  obtain ⟨⟨present, free⟩, same⟩ := Option.ite_none_right_eq_some.mp allowed
  obtain rfl := Option.some.inj same
  obtain ⟨memory', tree', done, after, sentinel⟩ := delete_represents timerLess represents present
    (show plan.entries.length ≤ turns by omega)
  have deleted : delTimer turns t.memory node = some memory' := done
  have fewer := length_without plan.entries node
  refine ⟨{ t with memory := memory' }, ?_, ⟨tree', after⟩, sentinel, phase, ran, inv.delTimer free, ?_⟩
  · simp only [step, deleted, Option.bind_eq_bind, Option.bind_some]
  · dsimp only
    omega

theorem look_kept (kept : Kept turns sentinel (.look :: rest) t plan)
    (allowed : plan.step sentinel .look = some plan') :
    ∃ t', step turns t .look = some t' ∧ Kept turns sentinel rest t' plan' := by
  obtain ⟨entries, here, earlier, added, deleted⟩ := plan
  obtain ⟨⟨tree, represents⟩, rfl, phase, ran, inv, enough⟩ := kept
  rw [List.length_cons] at enough
  cases here with
  | idle => cases allowed
  | handling now node => cases allowed
  | expiring now =>
      have taken : step turns t .look = look turns now t := by simp only [step, phase]
      rw [taken]
      cases entries with
      | nil =>
          obtain rfl := Option.some.inj allowed
          refine ⟨_, look_empty now represents, ⟨tree, represents⟩, rfl, rfl, ran, inv.quiet rfl rfl, ?_⟩
          dsimp only at enough ⊢
          omega
      | cons entry others =>
          simp only [List.length_cons] at enough
          have first := look_first now represents (show others.length < turns by omega)
          rw [first]
          rw [Plan.step] at allowed
          by_cases ahead : entry.key > now
          · rw [if_pos ahead]
            simp only [if_pos ahead] at allowed
            obtain rfl := Option.some.inj allowed
            refine ⟨_, rfl, ⟨tree, represents⟩, rfl, rfl, ran, inv.quiet rfl rfl, ?_⟩
            simp only [List.length_cons]
            omega
          · rw [if_neg ahead]
            simp only [if_neg ahead] at allowed
            obtain rfl := Option.some.inj allowed
            refine ⟨_, rfl, ⟨tree, represents⟩, rfl, rfl, ?_, inv.handle rfl rfl, ?_⟩
            · dsimp only at ran ⊢
              rw [ran]
            · simp only [List.length_cons]
              omega

theorem handlerDone_kept (kept : Kept turns sentinel (.handlerDone :: rest) t plan)
    (allowed : plan.step sentinel .handlerDone = some plan') :
    ∃ t', step turns t .handlerDone = some t' ∧ Kept turns sentinel rest t' plan' := by
  obtain ⟨⟨tree, represents⟩, rfl, phase, ran, inv, enough⟩ := kept
  rw [List.length_cons] at enough
  cases here : plan.phase with
  | idle =>
      simp only [Plan.step, here] at allowed
      cases allowed
  | expiring now =>
      simp only [Plan.step, here] at allowed
      cases allowed
  | handling now node =>
      simp only [Plan.step, here] at allowed
      obtain rfl := Option.some.inj allowed
      have present := inv.handled node (by rw [here]; rfl)
      obtain ⟨memory', tree', done, after, sentinel⟩ := delete_represents timerLess represents present
        (show plan.entries.length ≤ turns by omega)
      have deleted : ngxRbtreeDelete turns t.memory node = some memory' := done
      have fewer := length_without plan.entries node
      refine ⟨{ t with memory := memory', phase := .expiring now }, ?_, ⟨tree', after⟩, sentinel, rfl, ran,
        inv.handlerDone here, ?_⟩
      · simp only [step, phase, here, deleted, Option.bind_eq_bind, Option.bind_some]
      · dsimp only
        omega

theorem step_kept (event : Event) (rest : List Event) (t : Timers) (plan plan' : Plan)
    (kept : Kept turns sentinel (event :: rest) t plan) (allowed : plan.step sentinel event = some plan') :
    ∃ t', step turns t event = some t' ∧ Kept turns sentinel rest t' plan' := by
  cases event with
  | addTimer node msec currentTime => exact add_kept kept allowed
  | delTimer node => exact delete_kept kept allowed
  | look => exact look_kept kept allowed
  | handlerDone => exact handlerDone_kept kept allowed
  | expireTimer now =>
      obtain ⟨represents, sentinel, phase, ran, inv, enough⟩ := kept
      rw [List.length_cons] at enough
      simp only [Plan.step] at allowed
      obtain ⟨idle, same⟩ := Option.ite_none_right_eq_some.mp allowed
      obtain rfl := Option.some.inj same
      refine ⟨{ t with phase := .expiring now }, if_pos (phase.trans idle), represents, sentinel, rfl, ran,
        inv.quiet ?_ rfl, ?_⟩
      · rw [idle]
        rfl
      · dsimp only
        omega

def Plan.initial : Plan := ⟨[], .idle, [], [], []⟩

theorem run_kept {start memory : Memory} {events later : List Event}
    (initial : initTimer start sentinel = some memory)
    (ran : run (Plan.step sentinel) Plan.initial events = some plan) (enough : (events ++ later).length < turns) :
    ∃ t, run (step turns) ⟨memory, .idle, []⟩ events = some t ∧ Kept turns sentinel later t plan := by
  obtain ⟨empty, sentinelIs⟩ := ngxRbtreeInit_represents initial
  have first : Kept turns sentinel (events ++ later) ⟨memory, .idle, []⟩ Plan.initial :=
    ⟨⟨_, empty⟩, sentinelIs, rfl, rfl, ⟨List.Pairwise.nil, List.nodup_nil, nofun, List.Perm.nil⟩,
      by simpa [Plan.initial] using enough⟩
  exact run_refines (fun rest => Kept turns sentinel (rest ++ later))
    (fun event rest => step_kept event (rest ++ later)) first ran

theorem rbtTimer_accounted {start memory : Memory} {events : List Event}
    (initial : initTimer start sentinel = some memory)
    (ran : run (Plan.step sentinel) Plan.initial events = some plan) (enough : events.length < turns) :
    ∃ t tree, run (step turns) ⟨memory, .idle, []⟩ events = some t ∧ Represents t.memory plan.entries tree ∧
      Placed (timersOf plan.entries) ∧ t.phase = plan.phase ∧
      plan.added.Perm (t.ran ++ plan.deleted ++ waiting t.phase plan.entries) := by
  obtain ⟨t, performed, kept⟩ := run_kept initial ran (show (events ++ []).length < turns by simpa using enough)
  obtain ⟨tree, represents⟩ := kept.represents
  refine ⟨t, tree, performed, represents, kept.inv.placed, kept.phase, ?_⟩
  rw [kept.ran, kept.phase]
  exact kept.inv.accounted

theorem rbtTimer_accounted_rescheduling :
    ∃ memory t tree, initTimer blank 9 = some memory ∧
      run (step 8) ⟨memory, .idle, []⟩
        [.addTimer 1 50 1000, .addTimer 2 10 1000, .expireTimer 1010, .look, .addTimer 3 20 1010, .delTimer 1,
          .handlerDone] = some t ∧
      Represents t.memory [⟨3, 1030⟩] tree ∧ t.phase = .expiring 1010 ∧
      [(⟨1, 1050⟩ : Entry), ⟨2, 1010⟩, ⟨3, 1030⟩].Perm (t.ran ++ [⟨1, 1050⟩] ++ [⟨3, 1030⟩]) := by
  have followed : run (Plan.step 9) Plan.initial
      [.addTimer 1 50 1000, .addTimer 2 10 1000, .expireTimer 1010, .look, .addTimer 3 20 1010, .delTimer 1,
        .handlerDone] = some ⟨[⟨3, 1030⟩], .expiring 1010, [⟨2, 1010⟩], [⟨1, 1050⟩, ⟨2, 1010⟩, ⟨3, 1030⟩],
          [⟨1, 1050⟩]⟩ := by decide
  obtain ⟨t, tree, performed, represents, -, phase, accounted⟩ :=
    rbtTimer_accounted (show initTimer blank 9 = some _ from rfl) followed (show _ < 8 by decide)
  refine ⟨_, t, tree, rfl, performed, represents, phase, ?_⟩
  rw [phase] at accounted
  exact accounted

theorem sorted_timersOf {entries : List Entry} {now : Nat} : RbtTimer.Sorted now (timersOf entries) ↔
    entries.Pairwise fun first second => remaining now (timerOf first) ≤ remaining now (timerOf second) := by
  rw [RbtTimer.Sorted, timersOf, List.pairwise_map]

theorem rbtTimer_look {start memory : Memory} {events : List Event} {now : Nat}
    (initial : initTimer start sentinel = some memory)
    (ran : run (Plan.step sentinel) Plan.initial events = some plan) (phase : plan.phase = .expiring now)
    (word : now < 2 ^ 32) (within : Within now (timersOf plan.entries))
    (agrees : RbtTimer.Agrees now (timersOf plan.entries)) (enough : events.length + 1 < turns) :
    ∃ t, run (step turns) ⟨memory, .idle, []⟩ (events ++ [.look]) = some t ∧
      (t.phase = .idle ∧ (∀ entry ∈ plan.entries, 0 < remaining now (timerOf entry)) ∨
        ∃ entry ∈ plan.entries, t.phase = .handling now entry.node ∧ t.ran = plan.ran ++ [entry] ∧
          remaining now (timerOf entry) ≤ 0 ∧
          ∀ other ∈ plan.entries, remaining now (timerOf entry) ≤ remaining now (timerOf other)) := by
  obtain ⟨t, performed, kept⟩ := run_kept initial ran
    (show (events ++ [Event.look]).length < turns by simpa using enough)
  have sorted := sorted_timersOf.mp (kept.inv.placed.sorted within word)
  obtain ⟨⟨tree, represents⟩, sentinelIs, same, earlier, inv, few⟩ := kept
  have taken : step turns t .look = look turns now t := by simp only [step, same, phase]
  cases entries : plan.entries with
  | nil =>
      rw [entries] at represents
      refine ⟨_, run_concat.mpr ⟨t, performed, taken.trans (look_empty now represents)⟩, .inl ⟨rfl, ?_⟩⟩
      intro entry member
      cases member
  | cons entry others =>
      rw [entries] at represents few sorted agrees
      obtain ⟨behind, -⟩ := List.pairwise_cons.mp sorted
      have least : ∀ other ∈ entry :: others, remaining now (timerOf entry) ≤ remaining now (timerOf other) := by
        intro other member
        rcases List.mem_cons.mp member with rfl | later
        · exact Int.le_refl _
        · exact behind other later
      have inside : timerOf entry ∈ timersOf (entry :: others) := List.mem_cons_self ..
      have first := look_first now represents (show others.length < turns by simp at few; omega)
      by_cases ahead : entry.key > now
      · rw [if_pos ahead] at first
        refine ⟨_, run_concat.mpr ⟨t, performed, taken.trans first⟩, .inl ⟨rfl, ?_⟩⟩
        intro other member
        have future : ¬ remaining now (timerOf entry) ≤ 0 := fun due => by
          have passed : entry.key ≤ now := agrees.due _ inside due
          omega
        have order := least other member
        omega
      · rw [if_neg ahead] at first
        refine ⟨_, run_concat.mpr ⟨t, performed, taken.trans first⟩, .inr ⟨entry, List.mem_cons_self .., rfl, ?_, ?_,
          least⟩⟩
        · dsimp only
          rw [earlier]
        · by_contra future
          have early : now < entry.key := by
            refine agrees.next _ inside (by omega) ?_
            intro other member _
            obtain ⟨another, there, rfl⟩ := List.mem_map.mp member
            exact least another there
          omega

theorem rbtTimer_look_due :
    ∃ memory t, initTimer blank 9 = some memory ∧
      run (step 5) ⟨memory, .idle, []⟩
        ([.addTimer 1 50 1000, .addTimer 2 10 1000, .expireTimer 1010] ++ [.look]) = some t ∧
      t.ran = [⟨2, 1010⟩] := by
  have followed : run (Plan.step 9) Plan.initial [.addTimer 1 50 1000, .addTimer 2 10 1000, .expireTimer 1010] =
      some ⟨[⟨2, 1010⟩, ⟨1, 1050⟩], .expiring 1010, [], [⟨1, 1050⟩, ⟨2, 1010⟩], []⟩ := by decide
  obtain ⟨t, performed, idle | ⟨entry, member, phase, ran, due, least⟩⟩ :=
    rbtTimer_look (show initTimer blank 9 = some _ from rfl) followed rfl (by decide) (by rw [Within]; decide)
      ⟨by decide, by decide⟩ (show _ < 5 by decide)
  · exact absurd (idle.2 ⟨2, 1010⟩ (by decide)) (by decide)
  · refine ⟨_, t, rfl, performed, ?_⟩
    rw [ran]
    rcases List.mem_cons.mp member with rfl | other
    · rfl
    · obtain rfl := List.mem_singleton.mp other
      exact absurd due (by decide)

def turnsOf : Nat → List Event
  | 0 => [.look]
  | k + 1 => .look :: .handlerDone :: turnsOf k

def expireCall (now k : Nat) : List Event := .expireTimer now :: turnsOf k

theorem length_turnsOf (k : Nat) : (turnsOf k).length = 2 * k + 1 := by
  induction k with
  | zero => rfl
  | succ k ih =>
      rw [turnsOf, List.length_cons, List.length_cons, ih]
      omega

def Plan.expired (plan : Plan) (now : Nat) : Plan :=
  { plan with
    entries := plan.entries.dropWhile fun entry => entry.key ≤ now
    phase := .idle
    ran := plan.ran ++ plan.entries.takeWhile fun entry => entry.key ≤ now }

theorem turnsOf_plan {now : Nat} (distinct : (plan.entries.map Entry.node).Nodup) (phase : plan.phase = .expiring now) :
    run (Plan.step sentinel) plan (turnsOf (plan.entries.takeWhile fun entry => entry.key ≤ now).length) =
      some (plan.expired now) := by
  obtain ⟨entries, here, earlier, added, deleted⟩ := plan
  obtain rfl : here = .expiring now := phase
  induction entries generalizing earlier with
  | nil => simp [turnsOf, run, Plan.step, Plan.expired]
  | cons entry rest ih =>
      by_cases due : entry.key ≤ now
      · have left := without_head distinct
        have later := ih (earlier ++ [entry]) (List.nodup_cons.mp distinct).2
        simp only [due, decide_true, List.takeWhile_cons_of_pos, List.length_cons]
        rw [turnsOf, run, Plan.step]
        simp only [show ¬ entry.key > now by omega, if_false, Option.bind_some]
        rw [run, Plan.step]
        simp only [left, Option.bind_some]
        rw [later]
        simp [Plan.expired, due]
      · simp [turnsOf, run, Plan.step, Plan.expired, due, show now < entry.key by omega]

-- From the state after any run, at a clock in whose window the keys lie, a call runs the handlers of the front of the
-- tree up to the first key above the clock. These are the due timers, in order, and the others are left, iff the
-- unsigned comparison is right about them.
theorem rbtTimer_expireCall {start memory : Memory} {events : List Event} {now : Nat}
    (initial : initTimer start sentinel = some memory)
    (ran : run (Plan.step sentinel) Plan.initial events = some plan) (idle : plan.phase = .idle)
    (word : now < 2 ^ 32) (within : Within now (timersOf plan.entries))
    (enough : events.length + 2 * plan.entries.length + 2 < turns) :
    ∃ k t tree handled left, run (step turns) ⟨memory, .idle, []⟩ (events ++ expireCall now k) = some t ∧
      t.phase = .idle ∧ t.ran = plan.ran ++ handled ∧ Represents t.memory left tree ∧
      (RunsDue now (timersOf plan.entries) (timersOf handled) (timersOf left) ↔
        RbtTimer.Agrees now (timersOf plan.entries)) := by
  let k := (plan.entries.takeWhile fun entry => entry.key ≤ now).length
  have few : k ≤ plan.entries.length := (List.takeWhile_prefix _).length_le
  have inv : plan.Inv := by
    have short : (events ++ []).length < turns := by
      rw [List.append_nil]
      omega
    obtain ⟨_, _, kept⟩ := run_kept initial ran short
    exact kept.inv
  have begun : plan.step sentinel (.expireTimer now) = some { plan with phase := .expiring now } := if_pos idle
  have called : run (Plan.step sentinel) plan (expireCall now k) = some (plan.expired now) :=
    run_cons.mpr ⟨_, begun, turnsOf_plan inv.distinct rfl⟩
  have whole : run (Plan.step sentinel) Plan.initial (events ++ expireCall now k) =
      some (plan.expired now) := by
    rw [run_append, ran, Option.bind_some, called]
  have length : (events ++ expireCall now k ++ []).length < turns := by
    rw [List.append_nil, List.length_append, expireCall, List.length_cons, length_turnsOf]
    omega
  obtain ⟨t, performed, kept⟩ := run_kept initial whole length
  obtain ⟨tree, represents⟩ := kept.represents
  have sorted := inv.placed.sorted within word
  have taken : timersOf (plan.entries.takeWhile fun entry => entry.key ≤ now) =
      (timersOf plan.entries).takeWhile fun entry => entry.key ≤ now := by
    rw [timersOf, timersOf, List.takeWhile_map]
    rfl
  have dropped : timersOf (plan.expired now).entries =
      (timersOf plan.entries).dropWhile fun entry => entry.key ≤ now := by
    rw [Plan.expired, timersOf, timersOf, List.dropWhile_map]
    rfl
  refine ⟨k, t, tree, _, _, performed, kept.phase, kept.ran, represents, ?_⟩
  rw [taken, dropped]
  constructor
  · intro runs
    exact runs.agrees word within sorted
  · intro agrees
    exact agrees.runsDue sorted

theorem rbtTimer_expireCall_two :
    ∃ memory k t tree handled left, initTimer blank 9 = some memory ∧
      run (step 20) ⟨memory, .idle, []⟩
        ([.addTimer 1 50 1000, .addTimer 2 10 1000, .addTimer 3 9 1000, .delTimer 2] ++ expireCall 1020 k) = some t ∧
      t.ran = [] ++ handled ∧ Represents t.memory left tree ∧
      RunsDue 1020 [⟨1009, 3⟩, ⟨1050, 1⟩] (timersOf handled) (timersOf left) := by
  have followed : run (Plan.step 9) Plan.initial
      [.addTimer 1 50 1000, .addTimer 2 10 1000, .addTimer 3 9 1000, .delTimer 2] =
      some ⟨[⟨3, 1009⟩, ⟨1, 1050⟩], .idle, [], [⟨1, 1050⟩, ⟨2, 1010⟩, ⟨3, 1009⟩], [⟨2, 1010⟩]⟩ := by decide
  obtain ⟨k, t, tree, handled, left, performed, -, ran, represents, correct⟩ :=
    rbtTimer_expireCall (show initTimer blank 9 = some _ from rfl) followed rfl (show 1020 < 2 ^ 32 by decide)
      (by rw [Within]; decide) (show _ < 20 by decide)
  exact ⟨_, k, t, tree, handled, left, rfl, performed, ran, represents, correct.mpr ⟨by decide, by decide⟩⟩

end CppInfra.Timer.RbtreeTimer
