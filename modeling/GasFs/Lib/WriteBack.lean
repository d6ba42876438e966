/-
# Write-back caches

A cache stands between its users and a store of cells.  Its users read a cell, edit what they were
given in place, tell the cache that they did, and ask it now and then to write back.  Nothing reaches
the store without the second of these: an edit of a cell that is not marked is lost, unless the cell
is marked before the next write-back.

`Store` is such a cache as its users see it: what they read (`cur`), and what the next write-back
would leave (`fin`).  `Disciplined` says when a sequence of operations loses nothing, and
`Disciplined.run` that it does not: what is read is the store with every edit applied directly to it.

The discipline looks ahead: an edit of a cell that is not yet marked is allowed if a write of that
cell comes before the next write-back, as in "read, change, mark". So the invariant `Store.Inv`
speaks of the operations still to come, and `Disciplined.run` is an induction over the sequence with
the rest of it as a parameter.

The cells and values are arbitrary.  A cache of blocks with a bounded number of buffers is an
instance only as far as its buffers are not taken away while their users still hold them; `cached`
is the set of the cells whose buffers are in use.
-/
import Mathlib.Data.Set.Insert
import Mathlib.Tactic.Common

namespace WriteBack

/-- What the users of a cache do.  `edit` writes in the buffer that an earlier `read` has given out,
which the cache does not notice; `write` marks the cell and, if `sync` is set, writes back at
once. -/
inductive Op (α V : Type*) where
  | read (a : α)
  | edit (a : α) (f : V → V)
  | write (a : α) (sync : Bool)
  | sync

section Store

variable {α V : Type*}

/-- A cache over a store: what is read, what a write-back would leave, the cells that are marked, and
those whose buffers are in use. -/
structure Store (α V : Type*) where
  cur : α → V
  fin : α → V
  dirty : Set α
  cached : Set α

/-- Nothing cached yet. -/
def Store.start (d : α → V) : Store α V := ⟨d, d, ∅, ∅⟩

/-- The cell is written before the next write-back. -/
def WrittenBack (a : α) : List (Op α V) → Prop
  | [] => True
  | .write b _ :: ops => b = a ∨ WrittenBack a ops
  | .sync :: _ => False
  | .read _ :: ops | .edit _ _ :: ops => WrittenBack a ops

/-- An edit is made in a buffer that is in use, and either the cell is marked, or it will be written
before the next write-back. -/
def Store.Allowed (s : Store α V) (rest : List (Op α V)) : Op α V → Prop
  | .edit a _ => a ∈ s.cached ∧ (a ∈ s.dirty ∨ WrittenBack a rest)
  | .read _ | .write _ _ | .sync => True

/-- With the operations `rest` to come: a cell is as a write-back would leave it, or it will be
written before.  A marked cell, and one without a buffer in use, is as a write-back would leave it
in any case. -/
structure Store.Inv (s : Store α V) (rest : List (Op α V)) : Prop where
  settled : ∀ a, s.fin a = s.cur a ∨ WrittenBack a rest
  marked : ∀ a ∈ s.dirty, s.fin a = s.cur a
  free : ∀ a, a ∉ s.cached → s.fin a = s.cur a

variable {s : Store α V} {rest : List (Op α V)}

theorem Store.Inv.start (d : α → V) (rest : List (Op α V)) : (Store.start d).Inv rest where
  settled _ := Or.inl rfl
  marked _ _ := rfl
  free _ _ := rfl

/-- Before a write-back everything is settled. -/
theorem Store.Inv.fin_eq (h : s.Inv (.sync :: rest)) : s.fin = s.cur :=
  funext fun a => (h.settled a).resolve_right id

variable [DecidableEq α]

/-- Every edit applied to the store itself, as if there were no cache.  This is the
specification. -/
def direct : List (Op α V) → (α → V) → α → V
  | [], d => d
  | .edit a f :: ops, d => direct ops (Function.update d a (f (d a)))
  | .read _ :: ops, d | .write _ _ :: ops, d | .sync :: ops, d => direct ops d

/-- The specification of a sequence cut in two. -/
theorem direct_append (ops ops' : List (Op α V)) (d : α → V) :
    direct (ops ++ ops') d = direct ops' (direct ops d) := by
  induction ops generalizing d with
  | nil => rfl
  | cons op ops ih =>
    cases op with
    | edit a f => exact ih _
    | read a | write a s | sync => exact ih d

open Classical in
/-- One operation.  An edit changes what the users read; it changes what a write-back would leave
only if the cell is marked already, since otherwise the write-back passes the cell over. -/
noncomputable def Store.step (s : Store α V) : Op α V → Store α V
  | .read a => { s with cached := insert a s.cached }
  | .edit a f =>
    { s with
      cur := Function.update s.cur a (f (s.cur a))
      fin := if a ∈ s.dirty then Function.update s.fin a (f (s.cur a)) else s.fin }
  | .write a sync =>
    if a ∈ s.cached then
      { s with
        fin := Function.update s.fin a (s.cur a)
        dirty := if sync then s.dirty \ {a} else insert a s.dirty }
    else s
  | .sync => ⟨s.fin, s.fin, ∅, ∅⟩

/-- A sequence of operations. -/
noncomputable def Store.run (s : Store α V) (ops : List (Op α V)) : Store α V :=
  ops.foldl Store.step s

/-- Every operation of the sequence is allowed where it comes. -/
def Disciplined (s : Store α V) : List (Op α V) → Prop
  | [] => True
  | op :: ops => s.Allowed ops op ∧ Disciplined (s.step op) ops

variable {op : Op α V} {pre post : List (Op α V)}

/-- **One operation** keeps the invariant, and shows its edit. -/
theorem Store.Inv.step (h : s.Inv (op :: rest)) (hop : s.Allowed rest op) :
    (s.step op).Inv rest ∧ (s.step op).cur = direct [op] s.cur := by
  cases op with
  | read a =>
    refine ⟨⟨h.settled, h.marked, fun b hb => h.free b fun hc => hb ?_⟩, rfl⟩
    exact Set.mem_insert_of_mem a hc
  | edit a f =>
    obtain ⟨hcached, hsafe⟩ := hop
    have hother : ∀ b, b ≠ a → s.fin b = s.cur b → (s.step (.edit a f)).fin b =
        (s.step (.edit a f)).cur b := by
      intro b hne hb
      simp only [Store.step, Function.update_of_ne hne]
      split
      · rw [Function.update_of_ne hne, hb]
      · exact hb
    have hmarked : ∀ b ∈ s.dirty, (s.step (.edit a f)).fin b = (s.step (.edit a f)).cur b := by
      intro b hb
      rcases eq_or_ne b a with rfl | hne
      · simp only [Store.step, if_pos hb, Function.update_self]
      · exact hother b hne (h.marked b hb)
    refine ⟨⟨fun b => ?_, hmarked, fun b hb => ?_⟩, rfl⟩
    · rcases eq_or_ne b a with rfl | hne
      · exact hsafe.imp (hmarked b) id
      · exact (h.settled b).imp (hother b hne) id
    · have hne : b ≠ a := fun hba => hb (hba ▸ hcached)
      exact hother b hne (h.free b hb)
  | write a sync =>
    by_cases hc : a ∈ s.cached
    · have hfin : ∀ b, s.fin b = s.cur b ∨ b = a →
          Function.update s.fin a (s.cur a) b = s.cur b := by
        intro b hb
        rcases eq_or_ne b a with rfl | hne
        · exact Function.update_self _ _ _
        · rw [Function.update_of_ne hne]
          exact hb.resolve_right hne
      simp only [Store.step, if_pos hc]
      refine ⟨⟨fun b => ?_, fun b hb => ?_, fun b hb => ?_⟩, rfl⟩
      · rcases h.settled b with hb | rfl | hb
        · exact Or.inl (hfin b (Or.inl hb))
        · exact Or.inl (hfin a (Or.inr rfl))
        · exact Or.inr hb
      · refine hfin b ?_
        cases sync with
        | false => exact (Set.mem_insert_iff.mp hb).symm.imp (h.marked b) id
        | true => exact Or.inl (h.marked b hb.1)
      · exact hfin b (Or.inl (h.free b hb))
    · simp only [Store.step, if_neg hc]
      refine ⟨⟨fun b => ?_, h.marked, h.free⟩, rfl⟩
      rcases h.settled b with hb | rfl | hb
      · exact Or.inl hb
      · exact Or.inl (h.free a hc)
      · exact Or.inr hb
  | sync => exact ⟨⟨fun _ => Or.inl rfl, fun _ _ => rfl, fun _ _ => rfl⟩, h.fin_eq⟩

/-- **A disciplined sequence loses no edit**: at every point what is read is the store with the
edits so far applied to it directly, and the rest of the sequence is disciplined too.  The induction
is on the part already done. -/
theorem Disciplined.run (hd : Disciplined s (pre ++ post)) (hi : s.Inv (pre ++ post)) :
    (s.run pre).Inv post ∧ Disciplined (s.run pre) post ∧ (s.run pre).cur = direct pre s.cur := by
  induction pre generalizing s with
  | nil => exact ⟨hi, hd, rfl⟩
  | cons op pre ih =>
    obtain ⟨hop, hrest⟩ := hd
    obtain ⟨hi', hcur⟩ := hi.step hop
    obtain ⟨hinv, hdis, hrun⟩ := ih hrest hi'
    refine ⟨hinv, hdis, hrun.trans ?_⟩
    rw [hcur, ← direct_append]
    rfl

end Store

end WriteBack
