import Patricia.Proofs.Node.Instance
import Patricia.Walk

/-!
# What a walk ends with, whoever answers it

`Walk.Meets` says that a walk ends, without a failure of its own, with a result as promised,
whatever answers it gets. A `Service` is what is known of the answers: new stamps come from one
owner, a reference asks for a hash that may be asked for, and the node served for it is as the
service promises. A walk that asks for the same hash twice in a row gets the same node
(`Meets.load_twice`). Sequences are proved piece by piece (`Meets.bind`), and `run_alone_of_meets`
turns the guarantee into an outcome where there is no store.
-/

namespace Patricia

/-- What a walk can count on: the owner of new stamps, the hashes that it may ask for, and the
nodes that it may be given for a hash. -/
structure Service where
  owner : Nat
  asked : Hash → Prop
  served : Hash → Node → Prop

/-- The service with every hash allowed. -/
def Service.unbarred (service : Service) : Service :=
  { service with asked := fun _ ↦ True }

namespace Walk

variable {α β : Type} {service : Service} {post post' : Nat → α → Prop} {bound : Nat}
  {walk : Walk α} {recent : Option (Hash × Resolved)}

/-- Given the node that was loaded last, under its hash, and the number of the next stamp, the walk
ends with a result that fits `post` together with the number of the then next stamp. -/
def MeetsAfter (service : Service) (post : Nat → α → Prop) :
    Option (Hash × Resolved) → Nat → Walk α → Prop
  | _, bound, .done result => post bound result
  | _, _, .fail _ => False
  | recent, bound, .fresh next =>
      MeetsAfter service post recent (bound + 1) (next ⟨service.owner, bound, [], none⟩)
  | recent, bound, .load home hash next =>
      home = service.owner ∧ service.asked hash ∧
        ∀ (node : Resolved) (later : Nat), bound ≤ later → node.val.Issued service.owner later →
          service.served hash node.val →
          -- What was loaded last is still there.
          (∀ known, recent = some (hash, known) → node = known) →
          MeetsAfter service post (some (hash, node)) later (next node)

/-- Given the number of the next stamp, the walk ends with a result that fits `post` together with
the number of the then next stamp, whatever was loaded before. -/
def Meets (service : Service) (post : Nat → α → Prop) (bound : Nat) (walk : Walk α) : Prop :=
  walk.MeetsAfter service post none bound

/-- What is promised after some node was loaded is promised after another one if that is known to
be the same, or if nothing was known. -/
theorem MeetsAfter.forget {other : Option (Hash × Resolved)}
    (h : walk.MeetsAfter service post recent bound)
    (hknown : ∀ known, recent = some known → other = some known) :
    walk.MeetsAfter service post other bound := by
  induction walk generalizing recent other bound with
  | done result => exact h
  | fail failure => exact h
  | fresh next ih => exact ih _ h hknown
  | load home hash next ih =>
      obtain ⟨hhome, hasked, hnext⟩ := h
      refine ⟨hhome, hasked, fun node later hle hissued hserved hrecent ↦ ?_⟩
      exact hnext node later hle hissued hserved fun known hsome ↦ hrecent known (hknown _ hsome)

/-- What is promised whatever was loaded before is promised after any node. -/
theorem Meets.after (h : walk.Meets service post bound) :
    walk.MeetsAfter service post recent bound :=
  MeetsAfter.forget h nofun

/-- A weaker promise is met as well. Numbers of stamps only grow. -/
theorem MeetsAfter.mono (h : walk.MeetsAfter service post recent bound)
    (himp : ∀ later result, bound ≤ later → post later result → post' later result) :
    walk.MeetsAfter service post' recent bound := by
  induction walk generalizing recent bound with
  | done result => exact himp _ _ (Nat.le_refl _) h
  | fail failure => exact h
  | fresh next ih => exact ih _ h fun later result hle ↦ himp later result (by omega)
  | load home hash next ih =>
      obtain ⟨hhome, hasked, hnext⟩ := h
      refine ⟨hhome, hasked, fun node later hle hissued hserved hrecent ↦ ?_⟩
      exact ih node (hnext node later hle hissued hserved hrecent)
        fun last result hlast ↦ himp last result (Nat.le_trans hle hlast)

/-- What a walk promises with all hashes allowed it promises together with the rest. -/
theorem MeetsAfter.and (h : walk.MeetsAfter service.unbarred post recent bound)
    (h' : walk.MeetsAfter service post' recent bound) :
    walk.MeetsAfter service (fun later result ↦ post later result ∧ post' later result) recent
      bound := by
  induction walk generalizing recent bound with
  | done result => exact ⟨h, h'⟩
  | fail failure => exact h
  | fresh next ih => exact ih _ h h'
  | load home hash next ih =>
      exact ⟨h'.1, h'.2.1, fun node later hle hissued hserved hrecent ↦
        ih node (h.2.2 node later hle hissued hserved hrecent)
          (h'.2.2 node later hle hissued hserved hrecent)⟩

/-- A sequence meets what its second part meets from every result of the first. -/
theorem MeetsAfter.bind {next : α → Walk β} {last : Nat → β → Prop}
    (h : walk.MeetsAfter service
      (fun later result ↦ (next result).Meets service last later) recent bound) :
    (walk >>= next).MeetsAfter service last recent bound := by
  induction walk generalizing recent bound with
  | done result => exact Meets.after h
  | fail failure => exact h
  | fresh more ih => exact ih _ h
  | load home hash more ih =>
      exact ⟨h.1, h.2.1, fun node later hle hissued hserved hrecent ↦
        ih node (h.2.2 node later hle hissued hserved hrecent)⟩

namespace Meets

/-- A weaker promise is met as well. Numbers of stamps only grow. -/
theorem mono (h : walk.Meets service post bound)
    (himp : ∀ later result, bound ≤ later → post later result → post' later result) :
    walk.Meets service post' bound :=
  MeetsAfter.mono h himp

/-- What a walk promises with all hashes allowed it promises together with the rest. -/
theorem and (h : walk.Meets service.unbarred post bound) (h' : walk.Meets service post' bound) :
    walk.Meets service (fun later result ↦ post later result ∧ post' later result) bound :=
  MeetsAfter.and h h'

/-- A sequence meets what its second part meets from every result of the first. -/
theorem bind {next : α → Walk β} {last : Nat → β → Prop}
    (h : walk.Meets service (fun later result ↦ (next result).Meets service last later) bound) :
    (walk >>= next).Meets service last bound :=
  MeetsAfter.bind h

variable {home : Nat} {hash : Hash}

/-- A walk that goes on well from every node that may be served for a hash may load it. -/
theorem load {next : Resolved → Walk α} (hhome : home = service.owner)
    (hasked : service.asked hash)
    (hnext : ∀ (node : Resolved) (later : Nat), bound ≤ later →
      node.val.Issued service.owner later → service.served hash node.val →
      (next node).Meets service post later) :
    (Walk.load home hash next).Meets service post bound :=
  ⟨hhome, hasked, fun node later hle hissued hserved _ ↦
    (hnext node later hle hissued hserved).after⟩

/-- A walk that loads a hash twice in a row goes on with one node. -/
theorem load_twice {next : Resolved → Resolved → Walk α} (hhome : home = service.owner)
    (hasked : service.asked hash)
    (hnext : ∀ (node : Resolved) (later : Nat), bound ≤ later →
      node.val.Issued service.owner later → service.served hash node.val →
      (next node node).Meets service post later) :
    (Walk.load home hash fun first ↦ .load home hash (next first)).Meets service post bound := by
  refine ⟨hhome, hasked, fun first later hle _ _ _ ↦ ?_⟩
  refine ⟨hhome, hasked, fun second last hlast hissued hserved hrecent ↦ ?_⟩
  obtain rfl := hrecent first rfl
  exact (hnext second last (Nat.le_trans hle hlast) hissued hserved).after

end Meets

/-- Without a store, a walk that may ask for nothing ends with a result as promised. -/
theorem run_alone_of_meets {mint : Mint} (hasked : ∀ hash, ¬ service.asked hash)
    (howner : service.owner = mint.owner) (h : walk.Meets service post mint.next) :
    ∃ result later, walk.runAlone mint = (.ok result, later) ∧ later.owner = mint.owner ∧
      post later.next result := by
  induction walk generalizing mint with
  | done result => exact ⟨result, mint, rfl, rfl, h⟩
  | fail failure => exact h.elim
  | fresh next ih =>
      rw [Meets, MeetsAfter, howner] at h
      exact ih ⟨mint.owner, mint.next, [], none⟩ howner h
  | load home hash next ih => exact (hasked hash h.2.1).elim

end Walk

end Patricia
