import SLanguage.Expansion
import SLanguage.Proofs.FreshNames

/-!
# What an expansion pass can do

`Template r i works labels block`: the block is the one that takes the place of `i` when the names
`works` and `labels` are drawn for it; a basic instruction is its own block. `Registry.expand`
produces nothing else (`expand_ok`), so all that is said later of blocks is said by cases on
`Template`.
-/

namespace SLanguage

open Names

/-- The names of a copy of a body, in place of the variables and labels that need one. -/
structure Splice.Names (s : Splice) (c : Call) (body : List Instruction) : Prop where
  holders : s.holders.length = c.arguments.length
  locals : s.locals.map (·.1) =
    (varsOf body).filter (· ∉ (inputs s.holders).map (·.1))
  labels : s.labels.map (·.1) = labelsOf body

inductive Template (r : Registry) :
    Instruction → List Variable → List Label → List Instruction → Prop where
  | basic {i : Instruction} (h : i.isBasic = true) : Template r i [] [] [i]
  | zeroFresh {v : Variable} {loop : Label} :
      Template r ⟨.empty, .zero v⟩ [] [loop] (Block.zero v loop)
  | zero {l : Label} {v : Variable} (h : l ≠ .empty) :
      Template r ⟨l, .zero v⟩ [] [] (Block.zero v l)
  | goto {l target : Label} {z : Variable} :
      Template r ⟨l, .goto target⟩ [z] [] (Block.goto l target z)
  | assignConstant {l : Label} {v : Variable} {k : Value} :
      Template r ⟨l, .assignConstant v k⟩ [] [] (Block.assignConstant l v k)
  | assignSelf {l : Label} {v : Variable} :
      Template r ⟨l, .assign v v⟩ [] [] (Block.assignSelf l v)
  | assign {l : Label} {v w z : Variable} {drain restore done : Label} (h : v ≠ w) :
      Template r ⟨l, .assign v w⟩ [z] [drain, restore, done]
        (Block.assign l v w drain restore done z)
  | jumpZero {l target skip : Label} {v : Variable} :
      Template r ⟨l, .jumpZero v target⟩ [] [skip] (Block.jumpZero l v target skip)
  | jumpEqualConstant {l target skip : Label} {v z : Variable} {k : Value} :
      Template r ⟨l, .jumpEqualConstant v k target⟩ [z] [skip]
        (Block.jumpEqualConstant l v k target skip z)
  | jumpEqualSelf {l target : Label} {v : Variable} :
      Template r ⟨l, .jumpEqualVariable v v target⟩ [] [] (Block.jumpEqualSelf l target)
  | jumpEqualVariable {l target differ loop finish : Label} {v w z z' : Variable} (h : v ≠ w) :
      Template r ⟨l, .jumpEqualVariable v w target⟩ [z, z'] [differ, loop, finish]
        (Block.jumpEqualVariable l v w target differ loop finish z z')
  | quote {l : Label} {v : Variable} {c : Call} {f : Function} {s : Splice}
      (hf : r.get? c.name = some f) (hs : s.Names c f.body) :
      Template r ⟨l, .quote v c⟩ (s.holders ++ s.locals.map (·.2))
        (s.finish :: s.labels.map (·.2)) (s.block l v c f.body)
  | jumpEqualCall {l target : Label} {v z : Variable} {c : Call} :
      Template r ⟨l, .jumpEqualCall v c target⟩ [z] [] (Block.jumpEqualCall l v c target z)

variable {r : Registry} {n n' : SLanguage.Names}

/-! ## One instruction -/

theorem Splice.draw_ok {c : Call} {body : List Instruction} {s : Splice}
    (h : (draw c body).run n = .ok s n') :
    s.Names c body ∧
      Draws n n' (s.holders ++ s.locals.map (·.2)) (s.finish :: s.labels.map (·.2)) := by
  obtain ⟨holders, n1, h1, h⟩ := FreshM.bind_ok h
  obtain ⟨locals, n2, h2, h⟩ := FreshM.bind_ok h
  obtain ⟨finish, n3, h3, h⟩ := FreshM.bind_ok h
  obtain ⟨labels, n4, h4, h⟩ := FreshM.bind_ok h
  cases h
  obtain ⟨d1, e1⟩ := draws_mapM (fun w => [w]) (fun _ => []) (fun _ _ => True)
    (fun _ _ _ _ h => ⟨freshWork_ok h, trivial⟩) h1
  obtain ⟨d2, e2⟩ := draws_mapM (fun x => [x.2]) (fun _ => []) (fun v x => x.1 = v)
    (fun v _ _ _ h => by
      obtain ⟨w, n5, h5, h⟩ := FreshM.bind_ok h
      cases h; exact ⟨freshWork_ok h5, rfl⟩) h2
  have d3 := freshLabel_ok h3
  obtain ⟨d4, e4⟩ := draws_mapM (fun _ => []) (fun x => [x.2]) (fun l x => x.1 = l)
    (fun l _ _ _ h => by
      obtain ⟨m, n5, h5, h⟩ := FreshM.bind_ok h
      cases h; exact ⟨freshLabel_ok h5, rfl⟩) h4
  have keys {α β : Type} {xs : List α} {ys : List (α × β)}
      (h : List.Forall₂ (fun x y => y.1 = x) xs ys) : ys.map (·.1) = xs := by
    induction h with
    | nil => rfl
    | cons h _ ih => rw [List.map_cons, h, ih]
  refine ⟨⟨e1.length_eq.symm, keys e2, keys e4⟩, ?_⟩
  have d := ((d1.append d2).append d3).append d4
  have none {α β : Type} (xs : List α) : xs.flatMap (fun _ => ([] : List β)) = [] :=
    List.flatMap_eq_nil_iff.mpr fun _ _ => rfl
  simp only [← List.map_eq_flatMap, List.map_id', none, List.append_nil, List.nil_append,
    List.singleton_append] at d
  exact d

theorem Splice.draw_error {c : Call} {body : List Instruction} {e : Fault}
    (h : (draw c body).run n = .error e n') : Exhausted e := by
  rcases FreshM.bind_error h with h | ⟨holders, n1, -, h⟩
  · exact mapM_error (fun _ _ _ _ h => freshWork_error h) h
  rcases FreshM.bind_error h with h | ⟨locals, n2, -, h⟩
  · refine mapM_error (fun v _ _ _ h => ?_) h
    rcases FreshM.bind_error h with h | ⟨w, n5, -, h⟩
    · exact freshWork_error h
    · cases h
  rcases FreshM.bind_error h with h | ⟨finish, n3, -, h⟩
  · exact freshLabel_error h
  rcases FreshM.bind_error h with h | ⟨labels, n4, -, h⟩
  · refine mapM_error (fun v _ _ _ h => ?_) h
    rcases FreshM.bind_error h with h | ⟨m, n5, -, h⟩
    · exact freshLabel_error h
    · cases h
  · cases h

namespace Registry

/-- A quote is replaced by a splice of the body, with the names drawn for it. -/
theorem expand_quote_ok {site : Site} {l : Label} {v : Variable} {c : Call}
    {b : Option (List Instruction)} (h : (r.expand site ⟨l, .quote v c⟩).run n = .ok b n') :
    ∃ (f : Function) (s : Splice), r.get? c.name = some f ∧
      b = some (s.block l v c f.body) ∧ s.Names c f.body ∧
      Draws n n' (s.holders ++ s.locals.map (·.2)) (s.finish :: s.labels.map (·.2)) := by
  simp only [expand, lookup] at h
  cases hf : r.get? c.name with
  | none => rw [hf] at h; cases h
  | some f =>
    rw [hf] at h
    obtain ⟨s, n1, h1, h⟩ := FreshM.bind_ok h
    cases h
    exact ⟨f, s, rfl, rfl, Splice.draw_ok h1⟩

/-- Every block comes from a template, with the names drawn for it. -/
theorem expand_ok {site : Site} {i : Instruction} {b : Option (List Instruction)}
    (h : (r.expand site i).run n = .ok b n') :
    ∃ works labels, Draws n n' works labels ∧ Template r i works labels (b.getD [i]) := by
  obtain ⟨l, command⟩ := i
  cases command with
  | increase v => cases h; exact ⟨_, _, .refl n, .basic rfl⟩
  | decrease v => cases h; exact ⟨_, _, .refl n, .basic rfl⟩
  | neutral v => cases h; exact ⟨_, _, .refl n, .basic rfl⟩
  | jumpNotZero v target => cases h; exact ⟨_, _, .refl n, .basic rfl⟩
  | zero v =>
    simp only [expand] at h
    split at h
    · next hl =>
      obtain ⟨loop, n1, h1, h⟩ := FreshM.bind_ok h
      cases h; subst hl
      exact ⟨_, _, freshLabel_ok h1, .zeroFresh⟩
    · next hl => cases h; exact ⟨_, _, .refl n, .zero hl⟩
  | goto target =>
    obtain ⟨z, n1, h1, h⟩ := FreshM.bind_ok h
    cases h
    exact ⟨_, _, freshWork_ok h1, .goto⟩
  | assignConstant v k => cases h; exact ⟨_, _, .refl n, .assignConstant⟩
  | assign v w =>
    simp only [expand] at h
    split at h
    · next e => cases h; subst e; exact ⟨_, _, .refl n, .assignSelf⟩
    · next hne =>
      obtain ⟨drain, n1, h1, h⟩ := FreshM.bind_ok h
      obtain ⟨restore, n2, h2, h⟩ := FreshM.bind_ok h
      obtain ⟨done, n3, h3, h⟩ := FreshM.bind_ok h
      obtain ⟨z, n4, h4, h⟩ := FreshM.bind_ok h
      cases h
      exact ⟨_, _, (((freshLabel_ok h1).append (freshLabel_ok h2)).append (freshLabel_ok h3)).append
        (freshWork_ok h4), .assign hne⟩
  | jumpZero v target =>
    obtain ⟨skip, n1, h1, h⟩ := FreshM.bind_ok h
    cases h
    exact ⟨_, _, freshLabel_ok h1, .jumpZero⟩
  | jumpEqualConstant v k target =>
    obtain ⟨skip, n1, h1, h⟩ := FreshM.bind_ok h
    obtain ⟨z, n2, h2, h⟩ := FreshM.bind_ok h
    cases h
    exact ⟨_, _, (freshLabel_ok h1).append (freshWork_ok h2), .jumpEqualConstant⟩
  | jumpEqualVariable v w target =>
    simp only [expand] at h
    split at h
    · next e => cases h; subst e; exact ⟨_, _, .refl n, .jumpEqualSelf⟩
    · next hne =>
      obtain ⟨differ, n1, h1, h⟩ := FreshM.bind_ok h
      obtain ⟨loop, n2, h2, h⟩ := FreshM.bind_ok h
      obtain ⟨finish, n3, h3, h⟩ := FreshM.bind_ok h
      obtain ⟨z, n4, h4, h⟩ := FreshM.bind_ok h
      obtain ⟨z', n5, h5, h⟩ := FreshM.bind_ok h
      cases h
      have hlabels := ((freshLabel_ok h1).append (freshLabel_ok h2)).append (freshLabel_ok h3)
      exact ⟨_, _, (hlabels.append (freshWork_ok h4)).append (freshWork_ok h5),
        .jumpEqualVariable hne⟩
  | quote v c =>
    obtain ⟨f, s, hf, rfl, hs, hd⟩ := expand_quote_ok h
    exact ⟨_, _, hd, .quote hf hs⟩
  | jumpEqualCall v c target =>
    obtain ⟨z, n1, h1, h⟩ := FreshM.bind_ok h
    cases h
    exact ⟨_, _, freshWork_ok h1, .jumpEqualCall⟩

/-- An expansion fails when names run out, or at a quote of an unknown function. -/
theorem expand_error {site : Site} {i : Instruction} {e : Fault}
    (h : (r.expand site i).run n = .error e n') :
    Exhausted e ∨ ∃ v c, i.command = .quote v c ∧ r.get? c.name = none ∧
      e = .unknownFunction c.name site := by
  obtain ⟨l, command⟩ := i
  cases command with
  | increase v => cases h
  | decrease v => cases h
  | neutral v => cases h
  | jumpNotZero v target => cases h
  | assignConstant v k => cases h
  | zero v =>
    simp only [expand] at h
    split at h
    · rcases FreshM.bind_error h with h | ⟨loop, n1, -, h⟩
      · exact .inl (freshLabel_error h)
      · cases h
    · cases h
  | goto target =>
    rcases FreshM.bind_error h with h | ⟨z, n1, -, h⟩
    · exact .inl (freshWork_error h)
    · cases h
  | assign v w =>
    simp only [expand] at h
    split at h
    · cases h
    rcases FreshM.bind_error h with h | ⟨drain, n1, -, h⟩
    · exact .inl (freshLabel_error h)
    rcases FreshM.bind_error h with h | ⟨restore, n2, -, h⟩
    · exact .inl (freshLabel_error h)
    rcases FreshM.bind_error h with h | ⟨done, n3, -, h⟩
    · exact .inl (freshLabel_error h)
    rcases FreshM.bind_error h with h | ⟨z, n4, -, h⟩
    · exact .inl (freshWork_error h)
    · cases h
  | jumpZero v target =>
    rcases FreshM.bind_error h with h | ⟨skip, n1, -, h⟩
    · exact .inl (freshLabel_error h)
    · cases h
  | jumpEqualConstant v k target =>
    rcases FreshM.bind_error h with h | ⟨skip, n1, -, h⟩
    · exact .inl (freshLabel_error h)
    rcases FreshM.bind_error h with h | ⟨z, n2, -, h⟩
    · exact .inl (freshWork_error h)
    · cases h
  | jumpEqualVariable v w target =>
    simp only [expand] at h
    split at h
    · cases h
    rcases FreshM.bind_error h with h | ⟨differ, n1, -, h⟩
    · exact .inl (freshLabel_error h)
    rcases FreshM.bind_error h with h | ⟨loop, n2, -, h⟩
    · exact .inl (freshLabel_error h)
    rcases FreshM.bind_error h with h | ⟨finish, n3, -, h⟩
    · exact .inl (freshLabel_error h)
    rcases FreshM.bind_error h with h | ⟨z, n4, -, h⟩
    · exact .inl (freshWork_error h)
    rcases FreshM.bind_error h with h | ⟨z', n5, -, h⟩
    · exact .inl (freshWork_error h)
    · cases h
  | quote v c =>
    simp only [expand, lookup] at h
    cases hf : r.get? c.name with
    | none => rw [hf] at h; cases h; exact .inr ⟨v, c, rfl, hf, rfl⟩
    | some f =>
      rw [hf] at h
      rcases FreshM.bind_error h with h | ⟨s, n1, -, h⟩
      · exact .inl (Splice.draw_error h)
      · cases h
  | jumpEqualCall v c target =>
    rcases FreshM.bind_error h with h | ⟨z, n1, -, h⟩
    · exact .inl (freshWork_error h)
    · cases h

end Registry

end SLanguage
