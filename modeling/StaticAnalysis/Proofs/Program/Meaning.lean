import StaticAnalysis.Proofs.Program.Lowering

/-!
# Meaning of lowered programs

A structured statement has a meaning for every reading of actions as relations between states:
`Stmt.Runs` says from which state to which it leads, and whether it completes or leaves the
function.  Its graph has one by the paths from the entry of the function to its exit.  The two agree
(`Graph.runs_iff_path`), and what follows a return lies on no path.
-/

namespace StaticAnalysis

open Draft Nat SortedMap Stmt
open List hiding after

/-! ## Runs of statements -/

/-- How a statement ends: control goes on behind it, or the function is left. -/
inductive Ending where
  | completed
  | returned
deriving DecidableEq

namespace Stmt

/-- The runs of a statement whose first check has number `k`, when actions do what `I` says.  Checks
are numbered in the order of the text. -/
inductive Runs {S : Type*} (I : Action → S → S → Prop) : Stmt → Nat → S → Ending → S → Prop
  | done {k x} : Runs I .done k x .completed x
  | skip {k x} : Runs I .skip k x .completed x
  | act {a k x y} (h : I a x y) : Runs I (.act a) k x .completed y
  | check {c k x y} (h : I (.check k c) x y) : Runs I (.check c) k x .completed y
  | ret {e k x y} (h : I (.ret e) x y) : Runs I (.ret e) k x .returned y
  | seq {s t k x y z e} (hs : Runs I s k x .completed y) (ht : Runs I t (k + s.checkCount) y e z) :
    Runs I (.seq s t) k x e z
  | leave {s t k x y} (hs : Runs I s k x .returned y) : Runs I (.seq s t) k x .returned y
  | thenBranch {c s t k x y z e} (hc : I (.guard c) x y) (hs : Runs I s k y e z) :
    Runs I (.ite c s t) k x e z
  | elseBranch {c s t k x y z e} (hc : I (.guard c.negate) x y)
    (ht : Runs I t (k + s.checkCount) y e z) : Runs I (.ite c s t) k x e z
  | stop {c body k x y} (hc : I (.guard c.negate) x y) : Runs I (.loop c body) k x .completed y
  | again {c body k x y z w e} (hc : I (.guard c) x y) (hb : Runs I body k y .completed z)
    (hl : Runs I (.loop c body) k z e w) : Runs I (.loop c body) k x e w
  | leaveLoop {c body k x y z} (hc : I (.guard c) x y) (hb : Runs I body k y .returned z) :
    Runs I (.loop c body) k x .returned z

/-! ## Parts of statements -/

/-- The statements inside a statement, with the numbers of their first checks, their first points
and their starts. -/
inductive Part : Stmt → Nat → Nat → Nat → Stmt → Nat → Nat → Nat → Prop
  | first {s t k n start} : Part (.seq s t) k n start s k n start
  | second {s t k n start} :
    Part (.seq s t) k n start t (k + s.checkCount) (n + s.points) (s.after n start)
  | thenBranch {c s t k n start} : Part (.ite c s t) k n start s k (n + 2) n
  | elseBranch {c s t k n start} :
    Part (.ite c s t) k n start t (k + s.checkCount) (n + 2 + s.points) (n + 1)
  | body {c body k n start} : Part (.loop c body) k n start body k (n + 3) (n + 1)

section Part

variable {exit k n start k' n' start' : Nat} {s s' : Stmt}

section

variable (h : Part s k n start s' k' n' start')
include h

lemma Part.edges_subset : s'.edges exit k' n' start' ⊆ s.edges exit k n start := by
  intro e he
  cases h with
  | first => exact mem_append_left _ he
  | second => exact mem_append_right _ he
  | thenBranch | elseBranch => exact mem_edges_ite.2 (by simp [he])
  | body => exact mem_edges_loop.2 (by simp [he])

lemma Part.bounds (hstart : start < n) : start' < n' ∧ n ≤ n' ∧ n' + s'.points ≤ n + s.points ∧
      (start' = start ∨ n ≤ start' ∧ start' < n + s.points) := by
  cases h with
  | @second p =>
    have := p.after_mem n start
    dsimp only [points]
    omega
  | _ =>
    dsimp only [points]
    omega

/-- An edge of a statement that leaves a part, but not behind it, or that leads to a point of the
part is an edge of the part. -/
lemma Part.mem_edges (hstart : start < n) (hexit : exit < n)
    {e : Edge} (he : e ∈ s.edges exit k n start)
    (hat : (e.src = start' ∨ n' ≤ e.src ∧ e.src < n' + s'.points) ∧ e.src ≠ s'.after n' start' ∨
      n' ≤ e.dst ∧ e.dst < n' + s'.points) : e ∈ s'.edges exit k' n' start' := by
  cases h with
  | first =>
    have hmid := s'.after_mem n start
    refine (List.mem_append.1 he).resolve_right fun he => ?_
    have := mem_edges_bounds (by omega) he
    omega
  | @second p =>
    have hmid := p.after_mem n start
    refine (List.mem_append.1 he).resolve_left fun he => ?_
    have := mem_edges_bounds hstart he
    omega
  | @thenBranch _ _ t =>
    have helse := t.after_mem (n + 2 + s'.points) (n + 1)
    rcases mem_edges_ite.1 he with rfl | rfl | he | he | rfl | rfl
    case inr.inr.inl => exact he
    case inr.inr.inr.inl => have := mem_edges_bounds (by omega) he; omega
    all_goals dsimp only at hat; omega
  | @elseBranch _ p =>
    have hthen := p.after_mem (n + 2) n
    rcases mem_edges_ite.1 he with rfl | rfl | he | he | rfl | rfl
    case inr.inr.inl => have := mem_edges_bounds (by omega) he; omega
    case inr.inr.inr.inl => exact he
    all_goals dsimp only at hat; omega
  | body =>
    rcases mem_edges_loop.1 he with rfl | rfl | rfl | he | rfl
    case inr.inr.inr.inl => exact he
    all_goals dsimp only at hat; omega

/-- The point behind a statement is not the start of a part and not a point of it, the one behind
the part apart. -/
lemma Part.ne_after (hstart : start < n) {p : Nat}
    (hp : p = start' ∨ n' ≤ p ∧ p < n' + s'.points) (hne : p ≠ s'.after n' start') :
    p ≠ s.after n start := by
  cases h with
  | @first _ t =>
    have hmid := s'.after_mem n start
    have hlast := t.after_mem (n + s'.points) (s'.after n start)
    simp only [after]
    omega
  | second => exact hne
  | _ =>
    simp only [after]
    omega

end

end Part

end Stmt

/-! ## Paths -/

namespace Graph

/-- The edges lead one after the other from a point to a point. -/
def IsPath (g : Graph) : Nat → List Edge → Nat → Prop
  | n, [], m => n = m
  | n, e :: path, m => (e ∈ g.edges.toList ∧ e.src = n) ∧ g.IsPath e.dst path m

end Graph

def Edge.composed {S : Type*} (I : Action → S → S → Prop) : List Edge → S → S → Prop
  | [], x, y => x = y
  | e :: path, x, z => ∃ y, I e.action x y ∧ composed I path y z

namespace Graph

variable {S : Type*} {I : Action → S → S → Prop} {g : Graph} {exit : Nat}

/-- A path of at most `l` edges from a point to `exit` leads from a state to a state. -/
def Leads (g : Graph) (I : Action → S → S → Prop) (exit l n : Nat) (x y : S) : Prop :=
  ∃ path : List Edge, path.length ≤ l ∧ g.IsPath n path exit ∧ Edge.composed I path x y

lemma Leads.mono {l l' n : Nat} {x y : S} (h : g.Leads I exit l n x y) (hl : l ≤ l') :
    g.Leads I exit l' n x y := by
  obtain ⟨path, hlen, h⟩ := h
  exact ⟨path, Nat.le_trans hlen hl, h⟩

lemma Leads.cons {l : Nat} {e : Edge} (he : e ∈ g.edges.toList) {x y z : S} (hI : I e.action x y)
    (h : g.Leads I exit l e.dst y z) : g.Leads I exit (l + 1) e.src x z := by
  obtain ⟨path, hlen, hpath, hcomp⟩ := h
  exact ⟨e :: path, succ_le_succ hlen, ⟨⟨he, rfl⟩, hpath⟩, y, hI, hcomp⟩

lemma Leads.uncons {l n : Nat} {x z : S} (h : g.Leads I exit l n x z) (hn : n ≠ exit) :
    ∃ e ∈ g.edges.toList, e.src = n ∧ ∃ y, I e.action x y ∧
      ∃ l', l = l' + 1 ∧ g.Leads I exit l' e.dst y z := by
  obtain ⟨path, hlen, hpath, hcomp⟩ := h
  cases path with
  | nil => exact absurd hpath hn
  | cons e path =>
    obtain ⟨⟨he, hsrc⟩, hpath⟩ := hpath
    obtain ⟨y, hI, hcomp⟩ := hcomp
    obtain ⟨l', rfl⟩ : ∃ l', l = l' + 1 := ⟨l - 1, by simp at hlen; omega⟩
    exact ⟨e, he, hsrc, y, hI, l', rfl, path, by simpa using hlen, hpath, hcomp⟩

/-! ## Statements inside a graph -/

/-- The graph has the edges of a statement, and no others leave its points, the one behind it
apart. -/
structure Hosts (g : Graph) (exit : Nat) (s : Stmt) (k n start : Nat) : Prop where
  start_lt : start < n
  exit_lt : exit < n
  start_ne : start ≠ exit
  edges : ∀ e ∈ s.edges exit k n start, e ∈ g.edges.toList
  only : ∀ e ∈ g.edges.toList, e.src = start ∨ n ≤ e.src ∧ e.src < n + s.points →
    e.src ≠ s.after n start → e ∈ s.edges exit k n start

section Hosts

variable {s t body : Stmt} {c : Cond} {k n start : Nat}

lemma Hosts.after_ne (h : g.Hosts exit s k n start) : s.after n start ≠ exit := by
  have := s.after_mem n start
  have := h.exit_lt
  have := h.start_ne
  omega

lemma Hosts.part {s' : Stmt} {k' n' start' : Nat} (h : g.Hosts exit s k n start)
    (hp : Stmt.Part s k n start s' k' n' start') (hne : start' ≠ exit) :
    g.Hosts exit s' k' n' start' := by
  have hbounds := hp.bounds h.start_lt
  have hexit := h.exit_lt
  refine ⟨hbounds.1, by omega, hne, fun e he => h.edges e (hp.edges_subset he), ?_⟩
  intro e he hsrc hafter
  refine hp.mem_edges h.start_lt hexit ?_ (.inl ⟨hsrc, hafter⟩)
  exact h.only e he (by omega) (hp.ne_after h.start_lt hsrc hafter)

lemma Hosts.seq_left (h : g.Hosts exit (.seq s t) k n start) : g.Hosts exit s k n start :=
  h.part .first h.start_ne

lemma Hosts.seq_right (h : g.Hosts exit (.seq s t) k n start) :
    g.Hosts exit t (k + s.checkCount) (n + s.points) (s.after n start) :=
  h.part .second h.seq_left.after_ne

lemma Hosts.ite_then (h : g.Hosts exit (.ite c s t) k n start) : g.Hosts exit s k (n + 2) n :=
  h.part .thenBranch (Nat.ne_of_gt h.exit_lt)

lemma Hosts.ite_else (h : g.Hosts exit (.ite c s t) k n start) :
    g.Hosts exit t (k + s.checkCount) (n + 2 + s.points) (n + 1) :=
  h.part .elseBranch (Nat.ne_of_gt (lt_succ_of_lt h.exit_lt))

lemma Hosts.loop_body (h : g.Hosts exit (.loop c body) k n start) :
    g.Hosts exit body k (n + 3) (n + 1) :=
  h.part .body (Nat.ne_of_gt (lt_succ_of_lt h.exit_lt))

/-- What leaves the start of a branching and the points behind its branches. -/
lemma Hosts.ite_frame (h : g.Hosts exit (.ite c s t) k n start) {e : Edge}
    (he : e ∈ g.edges.toList) :
    (e.src = start → e = ⟨start, n, .guard c⟩ ∨ e = ⟨start, n + 1, .guard c.negate⟩) ∧
      (e.src = s.after (n + 2) n ∨ e.src = t.after (n + 2 + s.points) (n + 1) →
        e.dst = n + 2 + s.points + t.points ∧ e.action = .skip) := by
  have hlt := h.start_lt
  have hthen := s.after_mem (n + 2) n
  have helse := t.after_mem (n + 2 + s.points) (n + 1)
  have honly := h.only e he
  simp only [points, after, mem_edges_ite] at honly
  constructor <;> intro hsrc <;>
    rcases honly (by omega) (by omega) with rfl | rfl | hmem | hmem | rfl | rfl
  case left.inl => exact .inl rfl
  case left.inr.inl => exact .inr rfl
  case right.inr.inr.inr.inr.inl | right.inr.inr.inr.inr.inr => exact ⟨rfl, rfl⟩
  all_goals first
    | have := mem_edges_bounds (by omega) hmem; omega
    | dsimp only at hsrc; omega

/-- What leaves the start of a loop, the point behind its body and its head. -/
lemma Hosts.loop_frame (h : g.Hosts exit (.loop c body) k n start) {e : Edge}
    (he : e ∈ g.edges.toList) :
    (e.src = start ∨ e.src = body.after (n + 3) (n + 1) → e.dst = n ∧ e.action = .skip) ∧
      (e.src = n → e = ⟨n, n + 1, .guard c⟩ ∨ e = ⟨n, n + 2, .guard c.negate⟩) := by
  have hlt := h.start_lt
  have hbody := body.after_mem (n + 3) (n + 1)
  have honly := h.only e he
  simp only [points, after, mem_edges_loop] at honly
  constructor <;> intro hsrc <;>
    rcases honly (by omega) (by omega) with rfl | rfl | rfl | hmem | rfl
  case left.inl | left.inr.inr.inr.inr => exact ⟨rfl, rfl⟩
  case right.inr.inl => exact .inl rfl
  case right.inr.inr.inl => exact .inr rfl
  all_goals first
    | have := mem_edges_bounds (by omega) hmem; omega
    | dsimp only at hsrc; omega

end Hosts

/-! ## Runs and paths -/

/-- What is left to do when a statement has ended: a path of at most `l` edges from the point behind
it, or nothing if the function is left. -/
def Resumes (g : Graph) (I : Action → S → S → Prop) (exit l after : Nat) : Ending → S → S → Prop
  | .completed, z, y => g.Leads I exit l after z y
  | .returned, z, y => z = y

lemma Resumes.mono {l l' after : Nat} {e : Ending} {z y : S}
    (h : g.Resumes I exit l after e z y) (hl : l ≤ l') : g.Resumes I exit l' after e z y := by
  cases e with
  | completed => exact Leads.mono h hl
  | returned => exact h

section Meaning

variable {s : Stmt} {k n start l : Nat} {x y z : S}

lemma Hosts.uncons_single {e : Edge} (h : g.Hosts exit s k n start)
    (hl : g.Leads I exit l start x y)
    (hs : s.edges exit k n start = [e]) (hne : start ≠ s.after n start) :
    ∃ z, I e.action x z ∧ g.Leads I exit l e.dst z y := by
  obtain ⟨e', he, hsrc, z, hI, l', rfl, hrest⟩ := hl.uncons h.start_ne
  have hmem := h.only e' he (.inl hsrc) (hsrc.trans_ne hne)
  rw [hs] at hmem
  obtain rfl := List.mem_singleton.1 hmem
  exact ⟨z, hI, hrest.mono (le_succ l')⟩

lemma Hosts.cons {p q : Nat} {a : Action} (h : g.Hosts exit s k n start)
    (he : ⟨p, q, a⟩ ∈ s.edges exit k n start) (hI : I a x z) (hl : g.Leads I exit l q z y) :
    g.Leads I exit (l + 1) p x y :=
  Leads.cons (h.edges _ he) hI hl

section

variable (hskip : ∀ x y, I .skip x y ↔ x = y)
include hskip

variable {p q : Nat} {e : Ending}

lemma leads_skip (hedge : ⟨p, q, .skip⟩ ∈ g.edges.toList) (h : g.Leads I exit l q x y) :
    g.Leads I exit (l + 1) p x y :=
  Leads.cons (e := ⟨p, q, .skip⟩) hedge ((hskip x x).2 rfl) h

lemma Leads.unskip (hp : p ≠ exit)
    (honly : ∀ e ∈ g.edges.toList, e.src = p → e.dst = q ∧ e.action = .skip)
    (h : g.Leads I exit l p x y) : ∃ l', l = l' + 1 ∧ g.Leads I exit l' q x y := by
  obtain ⟨e, he, hsrc, z, hI, l', rfl, hrest⟩ := h.uncons hp
  obtain ⟨rfl, haction⟩ := honly e he hsrc
  rw [haction, hskip] at hI
  exact ⟨l', rfl, hI ▸ hrest⟩

lemma Resumes.unskip (hp : p ≠ exit)
    (honly : ∀ e ∈ g.edges.toList, e.src = p → e.dst = q ∧ e.action = .skip)
    (h : g.Resumes I exit l p e x y) : g.Resumes I exit (l + 1) q e x y := by
  cases e with
  | returned => exact h
  | completed =>
    obtain ⟨l', rfl, hrest⟩ := Leads.unskip hskip hp honly h
    exact hrest.mono (by omega)

lemma Resumes.skip (hedge : ⟨p, q, .skip⟩ ∈ g.edges.toList)
    (h : g.Resumes I exit l q e x y) : g.Resumes I exit (l + 1) p e x y := by
  cases e with
  | returned => exact h
  | completed => exact leads_skip hskip hedge h

lemma Hosts.exists_runs
    (hexit : ∀ e ∈ g.edges.toList, e.src ≠ exit) (h : g.Hosts exit s k n start)
    (hl : g.Leads I exit l start x y) :
    ∃ e z, s.Runs I k x e z ∧ g.Resumes I exit l (s.after n start) e z y := by
  induction s generalizing k n start l x with
  | done => exact ⟨.completed, x, .done, hl⟩
  | skip => exact ⟨.completed, x, .skip, hl⟩
  | act a =>
    obtain ⟨z, hI, hl⟩ := h.uncons_single hl rfl (Nat.ne_of_lt h.start_lt)
    exact ⟨.completed, z, .act hI, hl⟩
  | check c =>
    obtain ⟨z, hI, hl⟩ := h.uncons_single hl rfl (Nat.ne_of_lt h.start_lt)
    exact ⟨.completed, z, .check hI, hl⟩
  | ret r =>
    obtain ⟨z, hI, hl⟩ := h.uncons_single hl rfl (Nat.ne_of_lt h.start_lt)
    -- Nothing leaves the exit, so the path ends there.
    obtain ⟨path, -, hpath, hcomp⟩ := hl
    cases path with
    | nil => exact ⟨.returned, z, .ret hI, hcomp⟩
    | cons e path => exact absurd hpath.1.2 (hexit e hpath.1.1)
  | seq s t hs ht =>
    obtain ⟨e, z, hruns, hrest⟩ := hs h.seq_left hl
    cases e with
    | returned => exact ⟨.returned, z, .leave hruns, hrest⟩
    | completed =>
      obtain ⟨e, w, hruns', hrest⟩ := ht h.seq_right hrest
      exact ⟨e, w, .seq hruns hruns', hrest⟩
  | ite c s t hs ht =>
    obtain ⟨e, he, hsrc, z, hI, l', rfl, hl⟩ := hl.uncons h.start_ne
    rcases (h.ite_frame he).1 hsrc with rfl | rfl
    · obtain ⟨e, w, hruns, hrest⟩ := hs h.ite_then hl
      exact ⟨e, w, .thenBranch hI hruns, hrest.unskip hskip h.ite_then.after_ne
        fun e he hsrc => (h.ite_frame he).2 (.inl hsrc)⟩
    · obtain ⟨e, w, hruns, hrest⟩ := ht h.ite_else hl
      exact ⟨e, w, .elseBranch hI hruns, hrest.unskip hskip h.ite_else.after_ne
        fun e he hsrc => (h.ite_frame he).2 (.inr hsrc)⟩
  | loop c body hbody =>
    obtain ⟨l, rfl, hhead⟩ := hl.unskip hskip h.start_ne
      fun e he hsrc => (h.loop_frame he).1 (.inl hsrc)
    clear hl
    -- Each round makes the rest of the path shorter.
    suffices hrounds : ∃ e z, (Stmt.loop c body).Runs I k x e z ∧
      g.Resumes I exit l (n + 2) e z y by
      obtain ⟨e, z, hruns, hrest⟩ := hrounds
      exact ⟨e, z, hruns, hrest.mono (le_succ l)⟩
    induction l using Nat.strongRecOn generalizing x with
    | ind l ih =>
      have hn : n ≠ exit := by have := h.exit_lt; omega
      obtain ⟨e, he, hsrc, z, hI, l', rfl, hl⟩ := hhead.uncons hn
      rcases (h.loop_frame he).2 hsrc with rfl | rfl
      · obtain ⟨e, w, hruns, hrest⟩ := hbody h.loop_body hl
        cases e with
        | returned => exact ⟨.returned, w, .leaveLoop hI hruns, hrest⟩
        | completed =>
          obtain ⟨l'', rfl, hagain⟩ := Leads.unskip hskip h.loop_body.after_ne
            (fun e he hsrc => (h.loop_frame he).1 (.inr hsrc)) hrest
          obtain ⟨e, v, hruns', hrest⟩ := ih l'' (by omega) hagain
          exact ⟨e, v, .again hI hruns hruns', hrest.mono (by omega)⟩
      · exact ⟨.completed, z, .stop hI, hl.mono (le_succ l')⟩

lemma Hosts.enter {c : Cond} {body : Stmt} (h : g.Hosts exit (.loop c body) k n start)
    (hl : g.Leads I exit l n x y) : g.Leads I exit (l + 1) start x y :=
  leads_skip hskip (h.edges _ (mem_edges_loop.2 (.inl rfl))) hl

lemma Hosts.exists_leads (hruns : s.Runs I k x e z) (h : g.Hosts exit s k n start)
    (hrest : g.Resumes I exit l (s.after n start) e z y) : ∃ l, g.Leads I exit l start x y := by
  induction hruns generalizing n start l with
  | done | skip => exact ⟨l, hrest⟩
  | act hI | check hI =>
    exact ⟨l + 1, h.cons (mem_singleton_self _) hI hrest⟩
  | ret hI =>
    exact ⟨1, h.cons (mem_singleton_self _) hI ⟨[], Nat.le_refl 0, rfl, hrest⟩⟩
  | seq hs ht ihs iht =>
    obtain ⟨l', hrest⟩ := iht h.seq_right hrest
    exact ihs h.seq_left hrest
  | leave hs ihs => exact ihs (l := 0) h.seq_left hrest
  | @thenBranch c s t k x y' z e hI hs ihs =>
    have hmeet := hrest.skip hskip (p := s.after (n + 2) n)
      (h.edges _ (mem_edges_ite.2 (by simp [after])))
    obtain ⟨l', hrest⟩ := ihs h.ite_then hmeet
    exact ⟨l' + 1, h.cons (mem_edges_ite.2 (.inl rfl)) hI hrest⟩
  | @elseBranch c s t k x y' z e hI ht iht =>
    have hmeet := hrest.skip hskip (p := t.after (n + 2 + s.points) (n + 1))
      (h.edges _ (mem_edges_ite.2 (by simp [after])))
    obtain ⟨l', hrest⟩ := iht h.ite_else hmeet
    exact ⟨l' + 1, h.cons (mem_edges_ite.2 (.inr (.inl rfl))) hI hrest⟩
  | stop hI =>
    exact ⟨_, h.enter hskip (h.cons (mem_edges_loop.2 (by simp [after])) hI hrest)⟩
  | @again c body k x y' z' w e hI hb hl ihb ihl =>
    -- From the end of a round the path goes on as from the start of the loop.
    obtain ⟨l', hrest⟩ := ihl h hrest
    obtain ⟨l'', rfl, hhead⟩ := hrest.unskip hskip h.start_ne
      fun e he hsrc => (h.loop_frame he).1 (.inl hsrc)
    have hback := leads_skip hskip (p := body.after (n + 3) (n + 1)) (q := n)
      (h.edges _ (mem_edges_loop.2 (by simp))) hhead
    obtain ⟨l₁, hround⟩ := ihb h.loop_body hback
    exact ⟨_, h.enter hskip (h.cons (mem_edges_loop.2 (by simp)) hI hround)⟩
  | leaveLoop hI hb ihb =>
    obtain ⟨l₁, hround⟩ := ihb (l := 0) h.loop_body hrest
    exact ⟨_, h.enter hskip (h.cons (mem_edges_loop.2 (by simp)) hI hround)⟩

end

end Meaning

end Graph

/-! ## What follows a return -/

namespace Stmt

/-- Every run of the statement that ends leaves the function. -/
def leaves : Stmt → Bool
  | .ret _ => true
  | .seq s t => s.leaves || t.leaves
  | .ite _ s t => s.leaves && t.leaves
  | _ => false

/-- The edges of the statements that follow one that leaves the function. -/
def deadEdges (exit : Nat) : Stmt → Nat → Nat → Nat → List Edge
  | .seq s t, k, n, start =>
    let rest := if s.leaves then t.edges exit else t.deadEdges exit
    s.deadEdges exit k n start ++ rest (k + s.checkCount) (n + s.points) (s.after n start)
  | .ite _ s t, k, n, _ =>
    s.deadEdges exit k (n + 2) n ++
      t.deadEdges exit (k + s.checkCount) (n + 2 + s.points) (n + 1)
  | .loop _ body, k, n, _ => body.deadEdges exit k (n + 3) (n + 1)
  | _, _, _, _ => []

lemma deadEdges_subset {exit : Nat} {s : Stmt} {k n start : Nat} :
    s.deadEdges exit k n start ⊆ s.edges exit k n start := by
  induction s generalizing k n start with
  | done | skip | act | check | ret => exact nil_subset _
  | seq s t hs ht =>
    intro e he
    simp only [deadEdges, mem_append] at he
    refine List.mem_append.2 (he.imp (@hs _ _ _ e) fun he => ?_)
    split at he
    exacts [he, ht he]
  | ite c s t hs ht =>
    intro e he
    simp only [deadEdges, mem_append] at he
    rcases he with he | he
    exacts [mem_edges_ite.2 (by simp [hs he]), mem_edges_ite.2 (by simp [ht he])]
  | loop c body h => exact fun e he => mem_edges_loop.2 (by simp [h he])

end Stmt

namespace Graph

variable {g : Graph} {entry exit : Nat}

/-- The points that paths from `entry` lead to. -/
inductive Reached (g : Graph) (entry : Nat) : Nat → Prop
  | entry : Reached g entry entry
  | step {e : Edge} (he : e ∈ g.edges.toList) (h : Reached g entry e.src) : Reached g entry e.dst

lemma IsPath.reached {p m : Nat} {path : List Edge} (hpath : g.IsPath p path m)
    (hp : g.Reached entry p) {e : Edge} (he : e ∈ path) : g.Reached entry e.src := by
  induction path generalizing p with
  | nil => cases he
  | cons e' path ih =>
    obtain ⟨⟨hmem, rfl⟩, hpath⟩ := hpath
    rcases List.mem_cons.1 he with rfl | he
    exacts [hp, ih hpath (.step hmem hp) he]

/-- Only edges of a statement lead to its points, and the paths considered start before them. -/
structure Encloses (g : Graph) (entry exit : Nat) (s : Stmt) (k n start : Nat) : Prop where
  entry_lt : entry < n
  exit_lt : exit < n
  start_lt : start < n
  only : ∀ e ∈ g.edges.toList, n ≤ e.dst → e.dst < n + s.points → e ∈ s.edges exit k n start

section Encloses

variable {s t body : Stmt} {c : Cond} {k n start : Nat}

lemma Encloses.part {s' : Stmt} {k' n' start' : Nat} (h : g.Encloses entry exit s k n start)
    (hp : Stmt.Part s k n start s' k' n' start') : g.Encloses entry exit s' k' n' start' := by
  have hbounds := hp.bounds h.start_lt
  have hentry := h.entry_lt
  have hexit := h.exit_lt
  refine ⟨by omega, by omega, hbounds.1, fun e he hge hlt => ?_⟩
  exact hp.mem_edges h.start_lt hexit (h.only e he (by omega) (by omega)) (.inr ⟨hge, hlt⟩)

lemma Reached.exists_edge {p : Nat} (h : g.Reached entry p) (hp : p ≠ entry) :
    ∃ e ∈ g.edges.toList, e.dst = p ∧ g.Reached entry e.src := by
  cases h with
  | entry => exact absurd rfl hp
  | step he h => exact ⟨_, he, rfl, h⟩

section

variable (h : g.Encloses entry exit s k n start)
include h

lemma Encloses.not_reached
    (hstart : ¬ g.Reached entry start) {p : Nat} (hp : p = start ∨ n ≤ p ∧ p < n + s.points) :
    ¬ g.Reached entry p := by
  intro hreach
  induction hreach with
  | entry =>
    rcases hp with rfl | hp
    · exact hstart .entry
    · have := h.entry_lt
      omega
  | @step e he hsrc ih =>
    rcases hp with rfl | ⟨hge, hlt⟩
    · exact hstart (.step he hsrc)
    · exact ih (mem_edges_bounds h.start_lt (h.only e he hge hlt)).1

lemma Encloses.not_reached_after (hs : s.leaves) : ¬ g.Reached entry (s.after n start) := by
  induction s generalizing k n start with
  | done | skip | act | check | loop => cases hs
  | ret r =>
    intro hreach
    obtain ⟨e, he, hdst, -⟩ := hreach.exists_edge (Nat.ne_of_gt h.entry_lt)
    have hmem := h.only e he (Nat.le_of_eq hdst.symm) (hdst ▸ lt_succ_self _)
    obtain rfl := List.mem_singleton.1 hmem
    exact absurd hdst (Nat.ne_of_lt h.exit_lt)
  | seq s t ihs iht =>
    simp only [leaves, Bool.or_eq_true] at hs
    rcases hs with hs | ht
    · exact (h.part .second).not_reached (ihs (h.part .first) hs) (t.after_mem _ _)
    · exact iht (h.part .second) ht
  | ite c s t ihs iht =>
    simp only [leaves, Bool.and_eq_true] at hs
    intro hreach
    have hentry := h.entry_lt
    have hexit := h.exit_lt
    obtain ⟨e, he, hdst, hsrc⟩ := hreach.exists_edge (by simp only [after]; omega)
    simp only [after] at hdst
    have hmem := h.only e he (by omega) (by simp only [points]; omega)
    rcases mem_edges_ite.1 hmem with rfl | rfl | he | he | rfl | rfl
    case inr.inr.inr.inr.inl => exact ihs (h.part .thenBranch) hs.1 hsrc
    case inr.inr.inr.inr.inr => exact iht (h.part .elseBranch) hs.2 hsrc
    case inr.inr.inl | inr.inr.inr.inl => have := mem_edges_bounds (by omega) he; omega
    all_goals dsimp only at hdst; omega

lemma Encloses.not_reached_dead {e : Edge}
    (he : e ∈ s.deadEdges exit k n start) : ¬ g.Reached entry e.src := by
  induction s generalizing k n start with
  | done | skip | act | check | ret => cases he
  | seq s t ihs iht =>
    simp only [deadEdges, mem_append] at he
    rcases he with he | he
    · exact ihs (h.part .first) he
    · split at he
      next hs =>
        refine (h.part .second).not_reached ((h.part .first).not_reached_after hs) ?_
        exact (mem_edges_bounds (h.part .second).start_lt he).1
      next => exact iht (h.part .second) he
  | ite c s t ihs iht =>
    simp only [deadEdges, mem_append] at he
    rcases he with he | he
    exacts [ihs (h.part .thenBranch) he, iht (h.part .elseBranch) he]
  | loop c body ih => exact ih (h.part .body) he

end

end Encloses

end Graph

/-! ## Programs -/

def FunctionDef.checksIn : List FunctionDef → Nat
  | [] => 0
  | f :: functions => f.body.checkCount + checksIn functions

namespace Draft

variable {functions : List FunctionDef}

lemma exists_edges_forM {d d' : Draft} (h : ((functions.forM addFunction) d).2 = d') :
    ∃ es, d'.graph.edges.toList = d.graph.edges.toList ++ es ∧
      d.graph.nodes.size ≤ d'.graph.nodes.size ∧
      (∀ e ∈ es, (d.graph.nodes.size ≤ e.src ∧ d.graph.nodes.size ≤ e.dst) ∧
        e.src < d'.graph.nodes.size ∧ e.dst < d'.graph.nodes.size) ∧
      d'.checks = d.checks + FunctionDef.checksIn functions := by
  induction functions generalizing d with
  | nil =>
    obtain rfl : d = d' := h
    exact ⟨[], by simp [FunctionDef.checksIn]⟩
  | cons f l ih =>
    obtain ⟨hedges, hsize, hchecks, -⟩ := makes_fillFunction f d
    obtain ⟨es, hedges', hsize', hbounds, hchecks'⟩ := ih (d := (addFunction f d).2) h
    refine ⟨f.edges d.checks d.graph.nodes.size ++ es, ?_, by omega, fun e he => ?_, ?_⟩
    · rw [hedges', hedges, append_assoc]
    · rcases List.mem_append.1 he with he | he
      · have := FunctionDef.mem_edges_bounds he
        omega
      · have := hbounds e he
        omega
    · rw [hchecks', hchecks, FunctionDef.checksIn, Nat.add_assoc]

lemma forM_addFunction_append (l l' : List FunctionDef) (d : Draft) :
    ((l ++ l').forM addFunction) d = (l'.forM addFunction) ((l.forM addFunction) d).2 := by
  induction l generalizing d with
  | nil => rfl
  | cons f l ih => exact ih (addFunction f d).2

lemma function?_forM_addFunction {name : String}
    (hname : ∀ f ∈ functions, f.name ≠ name) (d : Draft) :
    ((functions.forM addFunction) d).2.graph.function? name = d.graph.function? name := by
  induction functions generalizing d with
  | nil => rfl
  | cons f l ih =>
    obtain ⟨hf, hl⟩ := List.forall_mem_cons.1 hname
    refine (ih hl (addFunction f d).2).trans ?_
    rw [addFunction_graph]
    change ((fillFunction f d).graph.functions.insert _ _).get? name = _
    rw [get?_insert, if_neg hf.symm, (makes_fillFunction f d).2.2.2.functions]
    rfl

end Draft

namespace Graph

lemma exists_finish {g : Graph}
    (h : ∀ name f, g.function? name = some f → f.entry < g.nodes.size) :
    ∃ g', g.finish = .ok g' := by
  unfold finish
  dsimp only
  split
  next n hn =>
    have hmem := mem_of_find?_eq_some hn
    rw [SortedSet.mem_toList, SortedSet.mem_ofList, mem_map] at hmem
    obtain ⟨f, hf, rfl⟩ := hmem
    obtain ⟨⟨name, f⟩, hentry, rfl⟩ := List.mem_map.1 hf
    have hlt := h name f (get?_eq_some_iff.2 hentry)
    exact absurd (find?_some hn) (by simpa using hlt)
  next => exact ⟨_, rfl⟩

section Programs

variable {g : Graph} {f : FunctionDef} {k n : Nat}

/-- The edges of a graph at the points of a function are those of the function. -/
structure HoldsFunction (g : Graph) (f : FunctionDef) (k n : Nat) : Prop where
  edges : ∀ e ∈ f.edges k n, e ∈ g.edges.toList
  only : ∀ e ∈ g.edges.toList, n ≤ e.src ∧ e.src < n + 2 + f.body.points ∨
    n ≤ e.dst ∧ e.dst < n + 2 + f.body.points → e ∈ f.edges k n

section

variable (h : g.HoldsFunction f k n)
include h

lemma HoldsFunction.mem_body {e : Edge} (he : e ∈ g.edges.toList)
    (hat : n ≤ e.src ∧ e.src < n + 2 + f.body.points ∨ n ≤ e.dst ∧ e.dst < n + 2 + f.body.points) :
    e ∈ f.body.edges (n + 1) k (n + 2) n ∨ e = ⟨f.body.after (n + 2) n, n + 1, .skip⟩ :=
  (List.mem_append.1 (h.only e he hat)).imp_right List.mem_singleton.1

lemma HoldsFunction.hosts : g.Hosts (n + 1) f.body k (n + 2) n where
  start_lt := by omega
  exit_lt := by omega
  start_ne := by omega
  edges e he := h.edges e (mem_append_left _ he)
  only e he hat hne := by
    rcases h.mem_body he (by omega) with he | rfl
    exacts [he, absurd rfl hne]

lemma HoldsFunction.encloses : g.Encloses n (n + 1) f.body k (n + 2) n where
  entry_lt := by omega
  exit_lt := by omega
  start_lt := by omega
  only e he hge hlt := by
    rcases h.mem_body he (by omega) with he | rfl
    · exact he
    · dsimp only at hge
      omega

lemma HoldsFunction.src_ne {e : Edge} (he : e ∈ g.edges.toList) : e.src ≠ n + 1 := by
  intro hsrc
  have hafter := f.body.after_mem (n + 2) n
  rcases h.mem_body he (by omega) with he | rfl
  · have := mem_edges_bounds (by omega) he
    omega
  · dsimp only at hsrc
    omega

lemma HoldsFunction.runs_iff {S : Type*} {I : Action → S → S → Prop}
    (hskip : ∀ x y, I .skip x y ↔ x = y) (x y : S) :
    (∃ e, f.body.Runs I k x e y) ↔
      ∃ path, g.IsPath n path (n + 1) ∧ Edge.composed I path x y := by
  have hexit : ∀ e ∈ g.edges.toList, e.src ≠ n + 1 := fun e he => h.src_ne he
  have hlast : (⟨f.body.after (n + 2) n, n + 1, .skip⟩ : Edge) ∈ g.edges.toList :=
    h.edges _ (mem_append_right _ (mem_singleton_self _))
  constructor
  · rintro ⟨e, hruns⟩
    have hrest : g.Resumes I (n + 1) 1 (f.body.after (n + 2) n) e y y := by
      cases e with
      | returned => exact rfl
      | completed => exact leads_skip hskip hlast ⟨[], Nat.le_refl 0, rfl, rfl⟩
    obtain ⟨l, path, -, hpath⟩ := h.hosts.exists_leads hskip hruns hrest
    exact ⟨path, hpath⟩
  · rintro ⟨path, hpath⟩
    obtain ⟨e, z, hruns, hrest⟩ :=
      h.hosts.exists_runs hskip hexit ⟨path, Nat.le_refl path.length, hpath⟩
    cases e with
    | returned =>
      obtain rfl : z = y := hrest
      exact ⟨.returned, hruns⟩
    | completed =>
      -- Behind the body only the edge to the exit is left.
      have hafter := f.body.after_mem (n + 2) n
      have honly : ∀ e ∈ g.edges.toList, e.src = f.body.after (n + 2) n →
          e.dst = n + 1 ∧ e.action = .skip := by
        intro e he hsrc
        rcases h.mem_body he (by omega) with he | rfl
        · exact absurd hsrc (mem_edges_bounds (by omega) he).2.1
        · exact ⟨rfl, rfl⟩
      obtain ⟨l, -, path, -, hpath, hcomp⟩ := Leads.unskip hskip h.hosts.after_ne honly hrest
      cases path with
      | nil =>
        obtain rfl : z = y := hcomp
        exact ⟨.completed, hruns⟩
      | cons e path => exact absurd hpath.1.2 (hexit e hpath.1.1)

end

/-- A program holds each of its functions that no later one of the same name replaces. -/
lemma exists_holdsFunction {base : Graph} (hedges : base.edges = #[])
    (hfunctions : base.functions = .empty) (before after : List FunctionDef)
    (hlast : ∀ f' ∈ after, f'.name ≠ f.name) :
    ∃ g n, ofFunctions base (before ++ f :: after) = .ok g ∧
      g.function? f.name = some ⟨f.name, f.params, f.locals, n, n + 1⟩ ∧
      g.HoldsFunction f (FunctionDef.checksIn before) n := by
  let d₁ := ((before.forM addFunction) { graph := base }).2
  let d₂ := (addFunction f d₁).2
  let d₃ := ((after.forM addFunction) d₂).2
  have hrun : (((before ++ f :: after).forM addFunction) { graph := base }).2 = d₃ := by
    rw [forM_addFunction_append]
    rfl
  have hapart : d₃.graph.EntriesApart := by
    rw [← hrun]
    exact forM_addFunction_induct (fun f _ _ hd => entriesApart_addFunction hd f)
      (entriesApart_of_isEmpty hedges hfunctions)
  obtain ⟨g, hg⟩ := exists_finish hapart.entry_lt
  obtain ⟨es₁, hedges₁, -, hbounds₁, hchecks₁⟩ := exists_edges_forM (rfl : _ = d₁)
  obtain ⟨hedges₂, hsize₂, -, -⟩ := makes_fillFunction f d₁
  obtain ⟨es₃, hedges₃, -, hbounds₃, -⟩ := exists_edges_forM (rfl : _ = d₃)
  have hchecks : d₁.checks = FunctionDef.checksIn before :=
    hchecks₁.trans (Nat.zero_add _)
  have hall : g.edges.toList = es₁ ++ f.edges d₁.checks d₁.graph.nodes.size ++ es₃ := by
    rw [finish_eq hg]
    refine hedges₃.trans ?_
    rw [hedges₂]
    congr 2
    exact hedges₁.trans (by rw [hedges]; rfl)
  refine ⟨g, d₁.graph.nodes.size, ?_, ?_, ?_⟩
  · change (Draft.graph (((before ++ f :: after).forM addFunction) { graph := base }).2).finish
      = .ok g
    rw [hrun, hg]
  · rw [finish_eq hg]
    refine (function?_forM_addFunction hlast d₂).trans ?_
    rw [addFunction_graph]
    exact get?_insert_self _ _ _
  · rw [← hchecks]
    refine ⟨fun e he => ?_, fun e he hat => ?_⟩
    · rw [hall]
      exact mem_append_left _ (mem_append_right _ he)
    · rw [hall, mem_append, mem_append] at he
      rcases he with (he | he) | he
      · have hlt : e.src < d₁.graph.nodes.size ∧ e.dst < d₁.graph.nodes.size := (hbounds₁ e he).2
        omega
      · exact he
      · have hge := (hbounds₃ e he).1
        change d₂.graph.nodes.size = _ at hsize₂
        omega

/-- Lowering keeps the meaning of programs.  Whatever actions do, as long as `skip` does nothing,
the body of a function leads from a state to a state exactly if some path from the entry of the
function to its exit does, and no path from the entry takes an edge of a statement that follows a
return. -/
theorem runs_iff_path {base : Graph} (hedges : base.edges = #[])
    (hfunctions : base.functions = .empty) (before after : List FunctionDef) (f : FunctionDef)
    (hlast : ∀ f' ∈ after, f'.name ≠ f.name) :
    ∃ g F, ofFunctions base (before ++ f :: after) = .ok g ∧ g.function? f.name = some F ∧
      (∀ (S : Type) (I : Action → S → S → Prop), (∀ x y, I .skip x y ↔ x = y) → ∀ x y,
        (∃ e, f.body.Runs I (FunctionDef.checksIn before) x e y) ↔
          ∃ path, g.IsPath F.entry path F.exit ∧ Edge.composed I path x y) ∧
      ∀ e ∈ f.body.deadEdges F.exit (FunctionDef.checksIn before) (F.entry + 2) F.entry,
        e ∈ g.edges ∧ ∀ path m, g.IsPath F.entry path m → e ∉ path := by
  obtain ⟨g, n, hbuilt, hfunction, hg⟩ :=
    exists_holdsFunction hedges hfunctions before after hlast
  refine ⟨g, _, hbuilt, hfunction, fun S I hskip x y => hg.runs_iff hskip x y, fun e he => ⟨?_, ?_⟩⟩
  · exact Array.mem_toList_iff.1 (hg.hosts.edges e (Stmt.deadEdges_subset he))
  · intro path m hpath hmem
    exact hg.encloses.not_reached_dead he (hpath.reached .entry hmem)

/-- A search in a loop that can return from inside it, with statements behind both returns. -/
def earlyReturn : FunctionDef :=
  ⟨"search", [], [⟨"i", .int⟩], .block [
    .loop (.cmp .lt (.read (.var "i")) (.const 10)) (.block [
      .ite (.cmp .eq .unknown (.const 0))
        (.block [.ret (some (.read (.var "i"))), .act (.assign (.var "i") (.const 0))]) .skip,
      .act (.assign (.var "i") (.arith .add (.read (.var "i")) (.const 1)))]),
    .ret none,
    .check (.cmp .eq (.read (.var "i")) (.const 0))]⟩

/-- Between two other functions, `earlyReturn` keeps its meaning, and the assignment and the check
behind its returns are on no path. -/
theorem runs_iff_path_earlyReturn :
    (∀ f' ∈ [(⟨"main", [], [], .act (.call none "search" [])⟩ : FunctionDef)],
      f'.name ≠ earlyReturn.name) ∧
    (earlyReturn.body.deadEdges 4 1 5 3).length = 2 ∧
    ∃ g F, ofFunctions {} ([⟨"other", [], [], .check (.cmp .eq .unknown (.const 0))⟩] ++
        earlyReturn :: [⟨"main", [], [], .act (.call none "search" [])⟩]) = .ok g ∧
      g.function? "search" = some F ∧
      (∀ (S : Type) (I : Action → S → S → Prop), (∀ x y, I .skip x y ↔ x = y) → ∀ x y,
        (∃ e, earlyReturn.body.Runs I 1 x e y) ↔
          ∃ path, g.IsPath F.entry path F.exit ∧ Edge.composed I path x y) ∧
      ∀ e ∈ earlyReturn.body.deadEdges F.exit 1 (F.entry + 2) F.entry,
        e ∈ g.edges ∧ ∀ path m, g.IsPath F.entry path m → e ∉ path := by
  have hlast : ∀ f' ∈ [(⟨"main", [], [], .act (.call none "search" [])⟩ : FunctionDef)],
      f'.name ≠ earlyReturn.name := by
    simp [earlyReturn]
  exact ⟨hlast, rfl, runs_iff_path rfl rfl
    [⟨"other", [], [], .check (.cmp .eq .unknown (.const 0))⟩] _ earlyReturn hlast⟩

end Programs

end Graph
end StaticAnalysis
