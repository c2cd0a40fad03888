import Patricia.Proofs.Loader.Heard
import Patricia.Proofs.Store.Held

/-!
# Loaders that serve walks

Over a store that answers reads from fixed contents, a loader whose cache holds only nodes that its
service may hand out goes on doing so, whatever its capacity is and whatever was dropped. So a walk
that meets a guarantee ends as guaranteed, or with the failure of reading a node that it asked for
(`Walk.run_meets`).
-/

namespace Patricia

/-- Some states of a store answer every read from the same contents and stay among themselves when
reads are issued. -/
structure Steady {σ : Type} [NodeStore σ] (contents : Contents) (states : σ → Prop) : Prop where
  answer : ∀ {store}, states store → ∀ hash, NodeStore.answer store hash = .ok (contents hash)
  request : ∀ {store}, states store → ∀ hash, states (NodeStore.request store hash)

/-- A service may hand out whatever is read from some contents when it is asked for it. -/
def Service.Reads (service : Service) (contents : Contents) : Prop :=
  ∀ {hash node}, service.asked hash → Loader.judge hash (.ok (contents hash)) = .ok node →
    ∀ owner serial, service.served hash (node.issue owner serial).val

variable {σ : Type} [NodeStore σ] {α : Type} {contents : Contents} {states : σ → Prop}
  {service : Service} {loader : Loader} {store : σ} {hash : Hash}

/-- A load takes its answer from the contents, and leaves the store in such a state. -/
theorem Loader.load_steady (hsteady : Steady contents states) (hstore : states store)
    (loader : Loader) (hash : Hash) :
    states (loader.load store hash).2.2 ∧
      ∀ answer, loader.heard store hash = some answer → answer = .ok (contents hash) := by
  cases hfound : loader.lookUp hash with
  | some found =>
      obtain ⟨hload, hheard⟩ := load_of_hit store hfound
      rw [hload, hheard]
      exact ⟨hstore, nofun⟩
  | none =>
      obtain ⟨waiting, after, -, -, hafter, hheard, hload⟩ := load_of_miss store hfound
      have hstates : states after := by
        rcases hafter with rfl | rfl
        · exact hstore
        · exact hsteady.request hstore hash
      rw [hload, hheard, hsteady.answer hstates]
      exact ⟨hstates, fun answer hanswer ↦ (Option.some.inj hanswer).symm⟩

namespace Walk

variable {post : Nat → α → Prop} {bound : Nat} {walk : Walk α}

/-- A walk takes all its answers from the contents, and leaves the store in such a state. -/
theorem run_steady (hsteady : Steady contents states) (hstore : states store) (walk : Walk α)
    (loader : Loader) :
    states (walk.run loader store).2.2 ∧
      ∀ entry ∈ walk.heard loader store, entry.2 = .ok (contents entry.1) := by
  induction walk generalizing loader store with
  | done | fail => exact ⟨hstore, List.forall_mem_nil _⟩
  | fresh next ih => exact ih _ hstore _
  | load home hash next ih =>
      obtain ⟨hload, hanswer⟩ := Loader.load_steady hsteady hstore loader hash
      rw [run, heard]
      split
      · have hfirst : ∀ entry ∈ (loader.heard store hash).toList.map (hash, ·),
            entry.2 = .ok (contents entry.1) := by
          simpa using hanswer
        generalize loader.load store hash = loaded at hload ⊢
        obtain ⟨outcome, later, after⟩ := loaded
        cases outcome with
        | ok node =>
            obtain ⟨hlast, hrest⟩ := ih node hload later
            exact ⟨hlast, List.forall_mem_append.mpr ⟨hfirst, hrest⟩⟩
        | error error => exact ⟨hload, List.forall_mem_append.mpr ⟨hfirst, List.forall_mem_nil _⟩⟩
      · exact ⟨hstore, List.forall_mem_nil _⟩

/-- How a walk may end: as guaranteed, or with the failure of reading a node that it asked for. The
store and the loader are as good as before. -/
def EndsWell (contents : Contents) (states : σ → Prop) (service : Service)
    (post : Nat → α → Prop) (bound : Nat) : Except Failure α × Loader × σ → Prop
  | (outcome, loader, store) =>
      states store ∧ loader.Serves service ∧ bound ≤ loader.mint.next ∧
        match outcome with
        | .ok result => post loader.mint.next result
        | .error failure => ∃ hash error, service.asked hash ∧
            Loader.judge hash (.ok (contents hash)) = .error error ∧ failure = .error error

/-- A walk that meets a guarantee ends well. -/
theorem run_meets (hsteady : Steady contents states) (hreads : service.Reads contents)
    (hserves : loader.Serves service) (hstore : states store)
    (h : walk.Meets service post loader.mint.next) :
    EndsWell contents states service post loader.mint.next (walk.run loader store) := by
  obtain ⟨hafter, hanswers⟩ := run_steady hsteady hstore walk loader
  have htakes : ∀ entry ∈ walk.heard loader store, service.Takes entry.1 entry.2 := by
    intro entry hentry node hasked hjudge
    rw [hanswers entry hentry] at hjudge
    exact hreads hasked hjudge
  have hconcludes := run_concludes h hserves htakes
  generalize walk.run loader store = ended at hafter hconcludes ⊢
  obtain ⟨outcome, later, after⟩ := ended
  obtain ⟨hlater, hle, houtcome⟩ := hconcludes
  refine ⟨hafter, hlater, hle, ?_⟩
  cases outcome with
  | ok result => exact houtcome
  | error failure =>
      obtain ⟨entry, hentry, error, hasked, hjudge, hfailure⟩ := houtcome
      rw [hanswers entry hentry] at hjudge
      exact ⟨entry.1, error, hasked, hjudge, hfailure⟩

end Walk

end Patricia
