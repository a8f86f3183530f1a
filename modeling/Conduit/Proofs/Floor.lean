import Conduit.Net.Table
import Conduit.Proofs.PipeRun

namespace Conduit.Net

open Pipe

namespace Place

def other (p : Place) : Place := { p with side := p.side.other }

@[simp] theorem other_other (p : Place) : p.other.other = p := by
  cases p with
  | mk pair side => cases side <;> rfl

theorem other_ne (p : Place) : p.other ≠ p := by
  cases p with
  | mk pair side => cases side <;> simp [other, Side.other]

theorem eq_or_eq_other {p q : Place} (h : q.pair = p.pair) : q = p ∨ q = p.other := by
  cases p with
  | mk i s =>
    cases q with
    | mk j t =>
      cases h
      cases s <;> cases t <;> simp [other, Side.other]

end Place

namespace Pairs

variable {ρ : Type} {ps : Pairs} {p q : Place} {l : Link}

def link? (ps : Pairs) (p : Place) : Option Link := (ps.get? p).map (·.link p.side)

theorem link?_other (ps : Pairs) (p : Place) : ps.link? p.other = (ps.link? p).map Link.swap := by
  have same : ps.get? p.other = ps.get? p := rfl
  rw [link?, link?, same, Option.map_map]
  congr 1
  funext pair
  exact pair.link_other p.side

def put (ps : Pairs) (p : Place) (l : Link) : Pairs :=
  match ps.get? p with
  | none => ps
  | some pair => { list := ps.list.setIfInBounds p.pair (pair.setLink p.side l) }

theorem link?_put (there : (ps.link? p).isSome) (l : Link) : (ps.put p l).link? p = some l := by
  match found : ps.get? p with
  | none => simp [link?, found] at there
  | some pair =>
    obtain ⟨hp, -⟩ := Array.getElem?_eq_some_iff.mp found
    rw [put, found, link?, get?, Array.getElem?_setIfInBounds, if_pos rfl, if_pos hp,
      Option.map_some, Pair.link_setLink]

theorem link?_put_other (there : (ps.link? p).isSome) (l : Link) :
    (ps.put p l).link? p.other = some l.swap := by
  rw [link?_other, link?_put there]
  rfl

theorem link?_put_of_ne (own : q ≠ p) (peer : q ≠ p.other) (l : Link) :
    (ps.put p l).link? q = ps.link? q := by
  unfold put
  match found : ps.get? p with
  | none => rfl
  | some pair =>
    have apart : p.pair ≠ q.pair := by
      intro same
      rcases Place.eq_or_eq_other same.symm with h | h
      · exact own h
      · exact peer h
    simp only [link?, get?, Array.getElem?_setIfInBounds, apart, if_false]

theorem isSome_link?_put (ps : Pairs) (p q : Place) (l : Link) :
    ((ps.put p l).link? q).isSome = (ps.link? q).isSome := by
  match there : ps.link? p with
  | none =>
    have absent : ps.get? p = none := by simpa [link?] using there
    rw [put, absent]
  | some k =>
    have known : (ps.link? p).isSome := there ▸ rfl
    by_cases own : q = p
    · rw [own, link?_put known, there]
      rfl
    · by_cases peer : q = p.other
      · rw [peer, link?_put_other known, link?_other, there]
        rfl
      · rw [link?_put_of_ne own peer]

theorem put_put (ps : Pairs) (p : Place) (l l' : Link) : (ps.put p l).put p l' = ps.put p l' := by
  match found : ps.get? p with
  | none => simp only [put, found]
  | some pair =>
    obtain ⟨hp, -⟩ := Array.getElem?_eq_some_iff.mp found
    have again : (ps.put p l).get? p = some (pair.setLink p.side l) := by
      rw [put, found, get?, Array.getElem?_setIfInBounds, if_pos rfl, if_pos hp]
    have set : (pair.setLink p.side l).setLink p.side l' = pair.setLink p.side l' := by
      cases p.side <;> rfl
    rw [put, again]
    simp only [put, found, set, Array.setIfInBounds_setIfInBounds]

theorem link?_push (there : ps.link? p = some l) (pair : Pair) :
    (Pairs.mk (ps.list.push pair)).link? p = some l := by
  rw [link?, Option.map_eq_some_iff] at there ⊢
  obtain ⟨old, found, seen⟩ := there
  obtain ⟨hp, -⟩ := Array.getElem?_eq_some_iff.mp found
  refine ⟨old, ?_, seen⟩
  rw [get?, Array.getElem?_push, if_neg (Nat.ne_of_lt hp)]
  exact found

theorem act_of_none (absent : ps.link? p = none) (f : Link → ρ × Link) :
    ps.act p f = (none, ps) := by
  rw [link?, Option.map_eq_none_iff] at absent
  rw [act, absent]

theorem act_of_some (there : ps.link? p = some l) (f : Link → ρ × Link) :
    ps.act p f = (some (f l).1, ps.put p (f l).2) := by
  rw [link?, Option.map_eq_some_iff] at there
  obtain ⟨pair, found, rfl⟩ := there
  rw [act, put, found]
  rfl

def perform (ps : Pairs) (p : Place) (c : Call) : Pairs :=
  (ps.act p fun l ↦ ((), l.perform c)).2

theorem act_eq_perform {f : Link → ρ × Link} {c : Call} (same : ∀ l, (f l).2 = l.perform c) :
    (ps.act p f).2 = ps.perform p c := by
  match there : ps.link? p with
  | none => rw [perform, act_of_none there, act_of_none there]
  | some l => rw [perform, act_of_some there, act_of_some there, same]

/-- A call of one end is seen from its own end and from the other, and nowhere else. -/
theorem exists_link?_perform (there : ps.link? p = some l) (q : Place) (c : Call) :
    ∃ l', (ps.perform q c).link? p = some l' ∧
      (q = p ∧ l' = l.perform c ∨ q = p.other ∧ l' = (l.swap.perform c).swap ∨
        q ≠ p ∧ q ≠ p.other ∧ l' = l) := by
  by_cases own : q = p
  · subst own
    refine ⟨_, ?_, .inl ⟨rfl, rfl⟩⟩
    rw [perform, act_of_some there, link?_put (there ▸ rfl)]
  · by_cases peer : q = p.other
    · have beyond : ps.link? q = some l.swap := by
        rw [peer, link?_other, there]
        rfl
      have back : p = q.other := by rw [peer, Place.other_other]
      refine ⟨_, ?_, .inr (.inl ⟨peer, rfl⟩)⟩
      rw [perform, act_of_some beyond, back, link?_put_other (beyond ▸ rfl)]
    · refine ⟨l, ?_, .inr (.inr ⟨own, peer, rfl⟩)⟩
      match seen : ps.link? q with
      | none =>
        rw [perform, act_of_none seen]
        exact there
      | some k =>
        have peer' : p ≠ q.other := by
          rintro rfl
          exact peer (Place.other_other q).symm
        rw [perform, act_of_some seen, link?_put_of_ne (Ne.symm own) peer', there]

def All (Inv : Place → Link → Prop) (ps : Pairs) : Prop := ∀ p l, ps.link? p = some l → Inv p l

theorem All.imp {Inv Inv' : Place → Link → Prop} (h : ps.All Inv)
    (weaker : ∀ q l, ps.link? q = some l → Inv q l → Inv' q l) : ps.All Inv' := by
  intro q l there
  exact weaker q l there (h q l there)

/-- What a call leaves of other pipes may be said in another way afterwards. -/
theorem All.put_of {Inv Inv' : Place → Link → Prop} (h : ps.All Inv) (there : (ps.link? p).isSome)
    (own : Inv' p l) (peer : Inv' p.other l.swap)
    (others : ∀ q k, q ≠ p → q ≠ p.other → Inv q k → Inv' q k) : (ps.put p l).All Inv' := by
  intro q k seen
  by_cases here : q = p
  · subst here
    rw [link?_put there] at seen
    exact Option.some.inj seen ▸ own
  · by_cases beyond : q = p.other
    · subst beyond
      rw [link?_put_other there] at seen
      exact Option.some.inj seen ▸ peer
    · rw [link?_put_of_ne here beyond] at seen
      exact others q k here beyond (h q k seen)

theorem All.put {Inv : Place → Link → Prop} (h : ps.All Inv) (own : Inv p l)
    (peer : Inv p.other l.swap) : (ps.put p l).All Inv := by
  match found : ps.link? p with
  | none =>
    have absent : ps.get? p = none := by simpa [link?] using found
    rw [Pairs.put, absent]
    exact h
  | some _ => exact h.put_of (found ▸ rfl) own peer fun _ _ _ _ kept ↦ kept

theorem All.act {Inv : Place → Link → Prop} (h : ps.All Inv) {f : Link → ρ × Link}
    (own : ∀ l, ps.link? p = some l → Inv p l → Inv p (f l).2)
    (peer : ∀ l, ps.link? p = some l → Inv p.other l.swap → Inv p.other (f l).2.swap) :
    (ps.act p f).2.All Inv := by
  match there : ps.link? p with
  | none =>
    rw [act_of_none there]
    exact h
  | some l =>
    rw [act_of_some there]
    have beyond : ps.link? p.other = some l.swap := by rw [link?_other, there]; rfl
    apply h.put
    · exact own l there (h p l there)
    · exact peer l there (h p.other l.swap beyond)

theorem All.push {Inv : Place → Link → Prop} (h : ps.All Inv) {pair : Pair}
    (fresh : ∀ side, Inv ⟨ps.list.size, side⟩ (pair.link side)) :
    (Pairs.mk (ps.list.push pair)).All Inv := by
  intro q l there
  rw [link?, get?, Array.getElem?_push] at there
  split at there
  · rename_i last
    obtain rfl := Option.some.inj there
    obtain ⟨i, side⟩ := q
    cases last
    exact fresh side
  · exact h q l there

end Pairs

namespace Table

variable {t : Table} {id : Nat} {p : Place}

theorem find?_erase (t : Table) (id id' : Nat) :
    (t.erase id).find? id' = if id' = id then none else t.find? id' := by
  obtain ⟨entries⟩ := t
  simp only [find?, erase]
  induction entries with
  | nil => simp
  | cons e entries ih =>
    by_cases gone : e.1 = id
    · rw [List.filter_cons_of_neg (by simpa using gone), ih, List.lookup_cons]
      split
      · rfl
      · rename_i other
        have differs : (id' == e.1) = false := by simpa [gone] using other
        simp only [differs]
    · rw [List.filter_cons_of_pos (by simpa using gone), List.lookup_cons, List.lookup_cons, ih]
      cases same : id' == e.1 with
      | true =>
        obtain rfl : id' = e.1 := by simpa using same
        simp only [gone, if_false]
      | false => rfl

theorem find?_insert (t : Table) (id : Nat) (p : Place) (id' : Nat) :
    (t.insert id p).find? id' = if id' = id then some p else t.find? id' := by
  have erased := t.find?_erase id id'
  rw [find?] at erased
  rw [find?, insert, List.lookup_cons, erased]
  split <;> simp_all

theorem mem_of_find? (found : t.find? id = some p) : (id, p) ∈ t.entries := by
  obtain ⟨before, after, split, -⟩ := List.lookup_eq_some_iff.mp found
  rw [split]
  exact List.mem_append_right _ List.mem_cons_self

theorem act_of_none {ρ : Type} (absent : t.find? id = none) (f : Link → ρ × Link) (ps : Pairs) :
    t.act id f ps = (none, ps) := by
  rw [act, absent]

theorem act_of_some {ρ : Type} (there : t.find? id = some p) (f : Link → ρ × Link) (ps : Pairs) :
    t.act id f ps = ps.act p f := by
  rw [act, there]

theorem exists_of_act {ρ : Type} {f : Link → ρ × Link} {ps : Pairs} {r : ρ}
    (result : (t.act id f ps).1 = some r) : ∃ p l, t.find? id = some p ∧ ps.link? p = some l ∧
      (f l).1 = r ∧ (t.act id f ps).2 = ps.put p (f l).2 := by
  match found : t.find? id with
  | none =>
    rw [act_of_none found] at result
    exact absurd result nofun
  | some p =>
    match there : ps.link? p with
    | none =>
      rw [act_of_some found, Pairs.act_of_none there] at result
      exact absurd result nofun
    | some l =>
      rw [act_of_some found, Pairs.act_of_some there] at result ⊢
      exact ⟨p, l, rfl, there, Option.some.inj result, rfl⟩

theorem act_put {ρ : Type} {f : Link → ρ × Link} {ps : Pairs} {l l' : Link}
    (found : t.find? id = some p) (there : ps.link? p = some l) :
    (t.act id f (ps.put p l')).2 = ps.put p (f l').2 := by
  rw [act_of_some found, Pairs.act_of_some (Pairs.link?_put (there ▸ rfl) l'), Pairs.put_put]

end Table

structure Floor where
  pairs : Pairs := {}
  table : Table := {}

inductive Change where
  | build (s : Settings)
  | enter (id : Nat) (p : Place)
  | leave (id : Nat)
  | call (p : Place) (c : Call)

namespace Floor

def change (f : Floor) : Change → Floor
  | .build s =>
    match Pair.create s with
    | .ok pair => { f with pairs := { list := f.pairs.list.push pair } }
    | .error _ => f
  | .enter id p => { f with table := f.table.insert id p }
  | .leave id => { f with table := f.table.erase id }
  | .call p c => { f with pairs := f.pairs.perform p c }

end Floor

end Conduit.Net
