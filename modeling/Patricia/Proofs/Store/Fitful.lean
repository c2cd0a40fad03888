import Patricia.Proofs.Loader.Serving
import Patricia.Proofs.Store.Memory

/-!
# Stores that fail at times

A `FitfulStore` keeps entries in memory. Each read and each write takes a tick of its clock, and
what comes of it depends on the mood at that tick: the store serves, or fails, or finds nothing. The
moods are any, so every pattern of failures is that of some such store. A list of entries is written
together at one tick, or one entry at a tick up to the first failure.

A walk over such a store changes nothing but the time, and each answer that it takes is the reply of
a tick in between (`Walk.run_fitful`), so it ends as guaranteed unless such a reply is judged to be
a failure (`Walk.run_fitful_meets`). A list that is written goes in as far as some entry, and all of
it goes in unless a tick in between is a bad one (`FitfulStore.putAll_cases`).
-/

namespace Patricia

/-- What a store is like at some tick. -/
inductive Mood where
  | well
  | failing (error : TrieError)
  | blank

/-- Entries in memory under moods that change with the time. `batches` says that several entries are
written together. -/
structure FitfulStore where
  nodes : MemoryStore
  batches : Bool
  moods : Nat → Mood
  clock : Nat

namespace FitfulStore

variable (store : FitfulStore)

/-- The store without entries before the first tick. -/
def empty (batches : Bool) (moods : Nat → Mood) : FitfulStore :=
  ⟨.empty, batches, moods, 0⟩

/-- The store at the next tick. -/
def tick : FitfulStore :=
  { store with clock := store.clock + 1 }

/-- The reply to a read at some tick. -/
def reply (moment : Nat) (hash : Hash) : Answer :=
  match store.moods moment with
  | .well => .ok (store.nodes.get? hash)
  | .failing error => .error error
  | .blank => .ok none

/-- Writing some entries together at the next tick. -/
def putTogether (entries : List Entry) : Except TrieError Unit × FitfulStore :=
  match store.moods (store.clock + 1) with
  | .failing error => (.error error, store.tick)
  | .well | .blank => (.ok (), { store.tick with nodes := store.nodes.insertAll entries })

/-- Writing some entries, one at a tick, up to the first failure. -/
def putEach (store : FitfulStore) : List Entry → Except TrieError Unit × FitfulStore
  | [] => (.ok (), store)
  | entry :: entries =>
      match store.putTogether [entry] with
      | (.ok (), store) => store.putEach entries
      | (.error error, store) => (.error error, store)

/-- A read that is issued takes a tick and is answered with the reply of that tick. -/
instance : NodeStore FitfulStore where
  request store _ := store.tick
  answer store hash := store.reply store.clock hash
  put store entry := store.putTogether [entry]
  putAll store entries := if store.batches then store.putTogether entries else store.putEach entries

/-- All ticks from now up to some last one are good. -/
def WellUntil (last : Nat) : Prop :=
  ∀ moment, store.clock < moment → moment ≤ last → store.moods moment = .well

variable {store}

/-- A reply that is judged to be a node is what is under the hash. -/
theorem reply_eq_of_judge {moment : Nat} {hash : Hash} {node : Resolved}
    (h : Loader.judge hash (store.reply moment hash) = .ok node) :
    store.reply moment hash = .ok (store.nodes.get? hash) := by
  rw [reply] at h ⊢
  cases hmood : store.moods moment with
  | well => rfl
  | failing error =>
      rw [hmood] at h
      cases h
  | blank =>
      rw [hmood] at h
      cases h

/-- The reply of a good tick is what is under the hash. -/
theorem reply_of_well {moment : Nat} (h : store.moods moment = .well) (hash : Hash) :
    store.reply moment hash = .ok (store.nodes.get? hash) := by
  rw [reply, h]

/-- How a list of entries may be written: some of its first entries go in, and all of them unless
some tick in between is a bad one. -/
def PutsAll (store : FitfulStore) (entries : List Entry) :
    Except TrieError Unit × FitfulStore → Prop
  | (outcome, after) => ∃ written, written <+: entries ∧ store.clock ≤ after.clock ∧
      after = { store with nodes := store.nodes.insertAll written, clock := after.clock } ∧
        match outcome with
        | .ok () => written = entries
        | .error _ => ¬ store.WellUntil after.clock

/-- Entries that are written together go in or not. -/
theorem putTogether_cases (store : FitfulStore) (entries : List Entry) :
    store.PutsAll entries (store.putTogether entries) := by
  rw [putTogether]
  cases hmood : store.moods (store.clock + 1) with
  | well | blank => exact ⟨entries, List.prefix_rfl, Nat.le_succ _, rfl, rfl⟩
  | failing error =>
      refine ⟨[], List.nil_prefix, Nat.le_succ _, rfl, fun hwell ↦ ?_⟩
      have hgood := hwell (store.clock + 1) (Nat.lt_succ_self _) (Nat.le_refl _)
      cases hmood.symm.trans hgood

/-- Entries that are written one after the other go in up to the first failure. -/
theorem putEach_cases (store : FitfulStore) (entries : List Entry) :
    store.PutsAll entries (store.putEach entries) := by
  induction entries generalizing store with
  | nil => exact ⟨[], List.prefix_rfl, Nat.le_refl _, rfl, rfl⟩
  | cons entry entries ih =>
      have hputs := store.putTogether_cases [entry]
      rw [putEach]
      generalize store.putTogether [entry] = put at hputs ⊢
      obtain ⟨outcome, next⟩ := put
      obtain ⟨first, hfirst, hle, hafter, houtcome⟩ := hputs
      cases outcome with
      | error error =>
          exact ⟨first, hfirst.trans (List.prefix_append [entry] entries), hle, hafter, houtcome⟩
      | ok done =>
          obtain rfl : first = [entry] := houtcome
          have hnext := ih next
          show store.PutsAll _ (next.putEach entries)
          generalize next.putEach entries = ended at hnext ⊢
          obtain ⟨outcome, last⟩ := ended
          obtain ⟨rest, hrest, hlast, hlater, hends⟩ := hnext
          have hnodes : next.nodes = store.nodes.insertAll [entry] := by rw [hafter]
          have hmoods : next.moods = store.moods := by rw [hafter]
          refine ⟨entry :: rest, List.cons_prefix_cons.mpr ⟨rfl, hrest⟩, Nat.le_trans hle hlast,
            ?_, ?_⟩
          · rw [hlater, hnodes, hafter]
            rfl
          · cases outcome with
            | ok done => exact congrArg (entry :: ·) hends
            | error error =>
                refine mt (fun hwell moment hlt hle' ↦ ?_) hends
                rw [hmoods]
                exact hwell moment (Nat.lt_of_le_of_lt hle hlt) hle'

/-- A list of entries goes in as far as some entry, and all of it unless some tick in between is a
bad one. -/
theorem putAll_cases (store : FitfulStore) (entries : List Entry) :
    store.PutsAll entries (NodeStore.putAll store entries) := by
  show store.PutsAll entries (ite _ _ _)
  split
  · exact store.putTogether_cases entries
  · exact store.putEach_cases entries

end FitfulStore

variable {α : Type} {loader : Loader} {store : FitfulStore} {hash : Hash}

namespace Loader

/-- A load where no flight is under way leaves none and takes at most a tick. What it hears is the
reply of that tick. -/
theorem load_fitful (hidle : loader.flights = []) (store : FitfulStore) (hash : Hash) :
    ∃ outcome later clock, loader.load store hash = (outcome, later, { store with clock }) ∧
      later.flights = [] ∧ store.clock ≤ clock ∧
      ∀ answer, loader.heard store hash = some answer →
        store.clock < clock ∧ answer = store.reply clock hash := by
  cases hfound : loader.lookUp hash with
  | some found =>
      obtain ⟨node, later⟩ := found
      obtain ⟨hload, hheard⟩ := load_of_hit store hfound
      obtain ⟨-, -, hflights, -⟩ := lookUp_entries hfound
      rw [hheard]
      exact ⟨_, later, store.clock, hload, hflights.trans hidle, Nat.le_refl _, nofun⟩
  | none =>
      obtain ⟨waiting, hwaiting, hboard⟩ : ∃ waiting : Loader,
          waiting.flights = [(hash, ⟨loader.installed, false⟩)] ∧
            loader.board hash = (.wait ⟨loader.installed, false⟩, waiting) := by
        rw [board, flight?, hidle, hfound]
        exact ⟨_, rfl, rfl⟩
      rw [heard, load, hfound, hboard]
      refine ⟨_, ((waiting.launch hash).land hash (store.reply (store.clock + 1) hash)).2,
        store.clock + 1, rfl, ?_, Nat.le_succ _, ?_⟩
      · rw [land_flights, launch, hwaiting]
        simp
      · rintro answer ⟨⟩
        exact ⟨Nat.lt_succ_self _, rfl⟩

end Loader

/-- A walk where no flight is under way leaves none and changes nothing about the store but the
time. What it hears are replies of ticks in between. -/
theorem Walk.run_fitful (walk : Walk α) (hidle : loader.flights = []) (store : FitfulStore) :
    ∃ outcome later clock, walk.run loader store = (outcome, later, { store with clock }) ∧
      later.flights = [] ∧ store.clock ≤ clock ∧
      ∀ entry ∈ walk.heard loader store, ∃ moment, store.clock < moment ∧ moment ≤ clock ∧
        entry.2 = store.reply moment entry.1 := by
  induction walk generalizing loader store with
  | done | fail => exact ⟨_, loader, store.clock, rfl, hidle, Nat.le_refl _, List.forall_mem_nil _⟩
  | fresh next ih => exact ih loader.issue.1 (show loader.issue.2.flights = [] from hidle) store
  | load home hash next ih =>
      rw [run, heard]
      split
      · obtain ⟨outcome, later, clock, hload, hflights, hle, hheard⟩ :=
          Loader.load_fitful hidle store hash
        have hfirst : ∀ entry ∈ (loader.heard store hash).toList.map (hash, ·),
            ∃ moment, store.clock < moment ∧ moment ≤ clock ∧
              entry.2 = store.reply moment entry.1 := by
          intro entry hentry
          obtain ⟨answer, hanswer, rfl⟩ := List.mem_map.mp hentry
          obtain ⟨hlt, hreply⟩ := hheard answer (Option.mem_toList.mp hanswer)
          exact ⟨clock, hlt, Nat.le_refl _, hreply⟩
        rw [hload]
        cases outcome with
        | error error =>
            rw [List.append_nil]
            exact ⟨_, later, clock, rfl, hflights, hle, hfirst⟩
        | ok node =>
            obtain ⟨result, last, final, hrun, hlast, hfinal, hrest⟩ :=
              ih node hflights { store with clock }
            refine ⟨result, last, final, hrun, hlast, Nat.le_trans hle hfinal, ?_⟩
            intro entry hentry
            rcases List.mem_append.mp hentry with hmem | hmem
            · obtain ⟨moment, hlt, hle', hreply⟩ := hfirst entry hmem
              exact ⟨moment, hlt, Nat.le_trans hle' hfinal, hreply⟩
            · obtain ⟨moment, hlt, hle', hreply⟩ := hrest entry hmem
              exact ⟨moment, Nat.lt_of_le_of_lt hle hlt, hle', hreply⟩
      · exact ⟨_, loader, store.clock, rfl, hidle, Nat.le_refl _, List.forall_mem_nil _⟩

/-- A walk that meets a guarantee ends as guaranteed, if the service may hand out what is in the
store, or it fails as the reply of a tick in between is judged. It leaves no flight and changes
nothing about the store but the time. -/
theorem Walk.run_fitful_meets {walk : Walk α} {service : Service} {post : Nat → α → Prop}
    (hreads : service.Reads store.nodes.get?) (hserves : loader.Serves service)
    (hidle : loader.flights = []) (h : walk.Meets service post loader.mint.next) :
    ∃ outcome later clock, walk.run loader store = (outcome, later, { store with clock }) ∧
      later.flights = [] ∧ later.Serves service ∧ loader.mint.next ≤ later.mint.next ∧
      match outcome with
      | .ok result => post later.mint.next result
      | .error _ => ∃ moment hash error, store.clock < moment ∧ moment ≤ clock ∧
          service.asked hash ∧ Loader.judge hash (store.reply moment hash) = .error error := by
  obtain ⟨outcome, later, clock, hrun, hlater, -, hheard⟩ := walk.run_fitful hidle store
  have htakes : ∀ entry ∈ walk.heard loader store, service.Takes entry.1 entry.2 := by
    intro entry hentry node hasked hjudge
    obtain ⟨moment, -, -, hreply⟩ := hheard entry hentry
    rw [hreply] at hjudge
    rw [FitfulStore.reply_eq_of_judge hjudge] at hjudge
    exact hreads hasked hjudge
  have hends := run_concludes h hserves htakes
  rw [hrun] at hends
  obtain ⟨hlast, hle, houtcome⟩ := hends
  refine ⟨outcome, later, clock, hrun, hlater, hlast, hle, ?_⟩
  cases outcome with
  | ok result => exact houtcome
  | error failure =>
      obtain ⟨entry, hentry, error, hasked, hjudge, -⟩ := houtcome
      obtain ⟨moment, hlt, hle', hreply⟩ := hheard entry hentry
      exact ⟨moment, entry.1, error, hlt, hle', hasked, hreply ▸ hjudge⟩

end Patricia
