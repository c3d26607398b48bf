import HTWGArchive.Simulator.TaskTableTriples

namespace Simulator

open TokenRuns

section Line

-- The tokens of a line whose fields make a row.
structure Shaped (row : TableRow) (tokens : List Token) (n a b c d d' : Token)
    (fs rest : List Token) : Prop where
  tokens : tokens = n :: a :: b :: c :: d' :: rest
  name : row.name = String.ofList n
  tPh : numeral a = some row.tPh
  tPer : numeral b = some row.tPer
  tE : numeral c = some row.tE
  tD : numeral d = some row.tD
  last : d' = d ∨ d' = d ++ ['\n']
  resources : readResources fs = some row.resources
  ends : Ends '\n' fs rest

theorem shaped_of_readRow {line : List Char} {row : TableRow}
    (h : readRow (fields line) = some row) (hends : Ends '\n' (fields line) (strtok line)) :
    ∃ n a b c d d' fs rest, Shaped row (strtok line) n a b c d d' fs rest := by
  generalize fields line = fs at h hends
  generalize strtok line = tokens at hends
  rcases fs with _ | ⟨name, _ | ⟨tPh, _ | ⟨tPer, _ | ⟨tE, _ | ⟨tD, fs⟩⟩⟩⟩⟩
  · cases h
  · cases h
  · cases h
  · cases h
  · cases h
  · rw [readRow] at h
    obtain ⟨a, ha, h⟩ := Option.bind_eq_some_iff.mp h
    obtain ⟨b, hb, h⟩ := Option.bind_eq_some_iff.mp h
    obtain ⟨c, hc, h⟩ := Option.bind_eq_some_iff.mp h
    obtain ⟨d, hd, h⟩ := Option.bind_eq_some_iff.mp h
    obtain ⟨triples, htriples, rfl⟩ := Option.map_eq_some_iff.mp h
    obtain ⟨_, rfl, hends₁⟩ := hends.cons_inv (by simp)
    obtain ⟨_, rfl, hends₂⟩ := hends₁.cons_inv (by simp)
    obtain ⟨_, rfl, hends₃⟩ := hends₂.cons_inv (by simp)
    obtain ⟨_, rfl, hends₄⟩ := hends₃.cons_inv (by simp)
    obtain ⟨tD', rest, rfl, hlast, hends₅⟩ := hends₄.uncons
    exact ⟨name, tPh, tPer, tE, tD, tD', fs, rest, rfl, rfl, ha, hb, hc, hd, hlast, htriples, hends₅⟩

theorem rowTokens_name {name : Token} (hstart : name ≠ "Start".toList)
    (hstop : name ≠ "Stop".toList) (rest : List Token) :
    rowTokens false (name :: rest) = name :: rest := by
  rw [rowTokens, if_neg (not_or.mpr ⟨hstart, hstop⟩)]

theorem entered_inRow (name tPh tPer tE tD : Token) {p : Parser} (hp : p.rescListTask = []) :
    InRow ⟨String.ofList name, (getNumber tPh).toUInt32, (getNumber tPer).toUInt32,
      (getNumber tE).toUInt32, (getNumber tD).toUInt32, []⟩ p.rows
        (p, entered name tPh tPer tE tD) := by
  refine ⟨rfl, rfl, rfl, rfl, rfl, rfl, rfl, rfl, Nat.zero_le 2, ?_, ?_⟩
  · rw [hp]
    rfl
  · exact Nat.two_pow_pos 31

theorem endLine_inRow {row : TaskRow} {rows : List TaskRow} {s : Parser × LineParser}
    (h : InRow row rows s) :
    ∃ p', endLine s.1 s.2 = some p' ∧ p'.rescListTask = [] ∧ p'.resources = s.1.resources ∧
      p'.rows = rows ++ [{ row with resources := s.1.rescListTask }] := by
  rw [endLine, if_pos h.taskState, h.name]
  refine ⟨_, rfl, rfl, rfl, ?_⟩
  rw [h.rows, h.tPh, h.tPer, h.tE, h.tD]

-- What the claimed reading of a line says about the parser that has read the lines before it.
def LineFaithful (p : Parser) (line : List Char) : Prop :=
  ∃ p', parseLine p line = some p' ∧ ∀ task, p'.rows = p.rows ++ [task] →
    ∃ row, readRow (fields line) = some row ∧ row.agrees task

theorem parseLine_rescListTask {p p' : Parser} {line : List Char} (hp : p.rescListTask = [])
    (h : parseLine p line = some p') : p'.rescListTask = [] := by
  by_cases haccepted : Accepted (strtok line)
  · obtain ⟨p₁, n, a, b, c, d, rest, hsame, _, _, hparse⟩ := parseLine_accepted haccepted p
    rw [hparse] at h
    obtain ⟨s', hrun, hend⟩ := Option.bind_eq_some_iff.mp h
    have hentered := entered_inRow n a b c d (hsame.rescListTask.trans hp)
    obtain ⟨p'', hp'', hnil, _⟩ := endLine_inRow (foldlM_inRow hentered hrun).1
    obtain rfl := Option.some_inj.mp (hend.symm.trans hp'')
    exact hnil
  · obtain ⟨p'', hsame, hp''⟩ := parseLine_rejected haccepted p
    obtain rfl := Option.some_inj.mp (h.symm.trans hp'')
    exact hsame.rescListTask.trans hp

theorem toList_of_ofList_ne {token : Token} {text : String} (h : String.ofList token ≠ text) :
    token ≠ text.toList := by
  rintro rfl
  exact h (String.ofList_toList ..)

theorem LineFaithful.wellFormed {p : Parser} {line : List Char} (hp : p.rescListTask = [])
    (hends : Ends '\n' (fields line) (strtok line)) (haccepted : Accepted (strtok line))
    (h : LineFaithful p line) : WellFormedLine line := by
  obtain ⟨p', hparse, hfaithful⟩ := h
  obtain ⟨p₁, n, a, b, c, d, rest, hsame, htokens, hnumbers, hrest⟩ := parseLine_accepted haccepted p
  rw [hrest] at hparse
  obtain ⟨s', hrun, hend⟩ := Option.bind_eq_some_iff.mp hparse
  have hentered := entered_inRow n a b c d (hsame.rescListTask.trans hp)
  have hentered' := (foldlM_inRow hentered hrun).1
  obtain ⟨p'', hp'', _, _, hrows⟩ := endLine_inRow hentered'
  obtain rfl := Option.some_inj.mp (hend.symm.trans hp'')
  rw [hsame.rows] at hrows
  obtain ⟨row, hread, hname, hph, hper, he, hd, hresources⟩ := hfaithful _ hrows
  obtain ⟨hstart, hstop⟩ := rowTokens_head htokens
  obtain ⟨n', a', b', c', d', d'', fs, rest', hshaped⟩ := shaped_of_readRow hread hends
  have hsamename : n' = n := String.ofList_injective (hshaped.name.symm.trans hname.symm)
  subst hsamename
  rw [hshaped.tokens, rowTokens_name hstart hstop] at htokens
  simp only [List.cons.injEq, true_and] at htokens
  obtain ⟨rfl, rfl, rfl, rfl, rfl⟩ := htokens
  have hlength : s'.1.rescListTask.length = row.resources.length := by
    rw [← hresources, List.length_map]
  have hcount : row.resources.length < 2 ^ 31 := by
    rw [← hlength, ← hentered'.index]
    exact hentered'.range
  have hfroms := froms_of_full_row hshaped.resources hshaped.ends hentered (fun heq => by cases heq)
    rfl hrun hcount (by rw [hlength, hsame.rescListTask.trans hp, List.length_nil, Nat.zero_add])
  refine ⟨row, hread, ?_, ?_, ?_, ?_, ?_, ?_, hcount, ?_⟩
  · rw [hshaped.name]
    exact fun heq => hstart (by rw [← heq, String.toList_ofList])
  · rw [hshaped.name]
    exact fun heq => hstop (by rw [← heq, String.toList_ofList])
  · exact hph ▸ UInt32.toNat_lt _
  · exact hper ▸ UInt32.toNat_lt _
  · exact he ▸ UInt32.toNat_lt _
  · exact hd ▸ UInt32.toNat_lt _
  · intro e hmem
    have hne := hfroms e hmem
    rw [← hresources] at hmem
    obtain ⟨x, _, rfl⟩ := List.mem_map.mp hmem
    have hlt := x.2.1.toNat_lt
    have hlt' := x.2.2.toNat_lt
    dsimp only at hne ⊢
    omega

theorem WellFormedLine.faithful {p : Parser} {line : List Char} (hp : p.rescListTask = [])
    (hends : Ends '\n' (fields line) (strtok line)) (haccepted : Accepted (strtok line))
    (h : WellFormedLine line) : LineFaithful p line := by
  obtain ⟨row, hread, hstart, hstop, hrange⟩ := h
  obtain ⟨n', a', b', c', d', d'', fs, rest', hshaped⟩ := shaped_of_readRow hread hends
  obtain ⟨p₁, n, a, b, c, d, rest, hsame, htokens, hnumbers, hrest⟩ := parseLine_accepted haccepted p
  rw [hshaped.name] at hstart hstop
  rw [hshaped.tokens, rowTokens_name (toList_of_ofList_ne hstart) (toList_of_ofList_ne hstop)]
    at htokens
  simp only [List.cons.injEq] at htokens
  obtain ⟨rfl, rfl, rfl, rfl, rfl, rfl⟩ := htokens
  have hentered := entered_inRow n' a' b' c' d'' (hsame.rescListTask.trans hp)
  obtain ⟨s', hrun, hlist⟩ := foldlM_resources (p := p₁) (l := entered n' a' b' c' d'')
    hshaped.resources hshaped.ends hrange.triples hrange.count rfl (fun heq => by cases heq) rfl rfl
    rfl
  obtain ⟨p', hend, _, _, hrows⟩ := endLine_inRow (foldlM_inRow hentered hrun).1
  refine ⟨p', by rw [hrest, hrun, Option.bind_some, hend], ?_⟩
  intro task htask
  rw [hrows, hsame.rows] at htask
  have hsametask := List.cons.inj (List.append_cancel_left htask)
  obtain ⟨rfl, _⟩ := hsametask
  refine ⟨row, hread, hshaped.name.symm, ?_, ?_, ?_, ?_, ?_⟩
  · dsimp only
    rw [getNumber_small hshaped.tPh (Or.inl rfl) hrange.tPh]
    exact UInt32.toNat_ofNat_of_lt' hrange.tPh
  · dsimp only
    rw [getNumber_small hshaped.tPer (Or.inl rfl) hrange.tPer]
    exact UInt32.toNat_ofNat_of_lt' hrange.tPer
  · dsimp only
    rw [getNumber_small hshaped.tE (Or.inl rfl) hrange.tE]
    exact UInt32.toNat_ofNat_of_lt' hrange.tE
  · dsimp only
    rw [getNumber_small hshaped.tD hshaped.last hrange.tD]
    exact UInt32.toNat_ofNat_of_lt' hrange.tD
  · dsimp only
    rw [hlist, hsame.rescListTask.trans hp, List.nil_append, entriesOf, List.map_map]
    refine (List.map_congr_left (g := id) ?_).trans (List.map_id _)
    intro e he
    obtain ⟨hfirst, hsecond⟩ := hrange.triples e he
    rw [Function.comp_apply, UInt32.toNat_ofNat_of_lt' (hfirst.trans (by decide)),
      UInt32.toNat_ofNat_of_lt' hsecond]
    rfl

theorem lineFaithful_iff {p : Parser} {line : List Char} (hp : p.rescListTask = [])
    (hends : Ends '\n' (fields line) (strtok line)) :
    LineFaithful p line ↔ (Accepted (strtok line) → WellFormedLine line) := by
  constructor
  · exact fun h haccepted => h.wellFormed hp hends haccepted
  · intro h
    by_cases haccepted : Accepted (strtok line)
    · exact (h haccepted).faithful hp hends haccepted
    · obtain ⟨p', hsame, hparse⟩ := parseLine_rejected haccepted p
      refine ⟨p', hparse, ?_⟩
      intro task htask
      rw [hsame.rows] at htask
      exact absurd htask.symm (by simp)

end Line

section Resources

-- The list of resources is what the entries read so far name.
def Collected (p : Parser) : Prop :=
  p.resources = (p.rows.flatMap (fun row => row.resources.map Prod.fst) ++
    p.rescListTask.map Prod.fst).foldl addResource []

theorem addEntry_collected {p : Parser} {l : LineParser} {n : Int32} {s : Parser × LineParser}
    (h : Collected p) (hstep : addEntry p l n = some s) : Collected s.1 := by
  rw [addEntry] at hstep
  split at hstep
  · cases hstep
  · split at hstep
    · cases hstep
    · rename_i name _ _
      obtain rfl := Option.some_inj.mp hstep
      have hexists : checkIfResourceExists p.resources name = decide (name ∈ p.resources) := by
        rw [Bool.eq_iff_iff, checkIfResourceExists, List.any_eq_true, decide_eq_true_eq]
        simp
      have hadd : (if checkIfResourceExists p.resources name then p.resources
          else p.resources ++ [name]) = addResource p.resources name := by
        rw [hexists, addResource]
        simp only [decide_eq_true_eq]
      rw [Collected]
      dsimp only
      rw [hadd, List.map_append, ← List.append_assoc, List.foldl_append, ← h]
      rfl

theorem parseToken_collected {s s' : Parser × LineParser} {token : Token} (h : Collected s.1)
    (hstep : parseToken s token = some s') : Collected s'.1 := by
  rw [parseToken] at hstep
  split at hstep
  · obtain rfl := Option.some_inj.mp hstep
    exact h
  · split at hstep
    · obtain rfl := Option.some_inj.mp hstep
      exact h
    · split at hstep
      · obtain rfl := Option.some_inj.mp hstep
        exact h
      · split at hstep
        · rw [rescToken] at hstep
          split at hstep
          · obtain rfl := Option.some_inj.mp hstep
            exact h
          · split at hstep
            · obtain rfl := Option.some_inj.mp hstep
              exact h
            · split at hstep
              · obtain rfl := Option.some_inj.mp hstep
                exact h
              · exact addEntry_collected h hstep
        · obtain rfl := Option.some_inj.mp hstep
          exact h

theorem foldlM_collected {tokens : List Token} {s s' : Parser × LineParser} (h : Collected s.1)
    (hrun : tokens.foldlM parseToken s = some s') : Collected s'.1 := by
  induction tokens generalizing s with
  | nil =>
    obtain rfl := Option.some_inj.mp hrun
    exact h
  | cons token tokens ih =>
    rw [List.foldlM_cons] at hrun
    obtain ⟨s₁, hstep, hrest⟩ := Option.bind_eq_some_iff.mp hrun
    exact ih (parseToken_collected h hstep) hrest

theorem parseLine_collected {p p' : Parser} {line : List Char} (h : Collected p)
    (hparse : parseLine p line = some p') : Collected p' := by
  obtain ⟨s, hrun, hend⟩ := Option.bind_eq_some_iff.mp hparse
  have hs := foldlM_collected (s := (p, LineParser.fresh)) h hrun
  rw [endLine] at hend
  split at hend
  · obtain ⟨name, _, rfl⟩ := Option.map_eq_some_iff.mp hend
    rw [Collected] at hs ⊢
    simpa using hs
  · obtain rfl := Option.some_inj.mp hend
    exact hs

theorem foldlM_parseLine {lines : List (List Char)} {p p' : Parser} (h : Collected p)
    (hp : p.rescListTask = []) (hrun : lines.foldlM parseLine p = some p') :
    Collected p' ∧ p'.rescListTask = [] := by
  induction lines generalizing p with
  | nil =>
    obtain rfl := Option.some_inj.mp hrun
    exact ⟨h, hp⟩
  | cons line lines ih =>
    rw [List.foldlM_cons] at hrun
    obtain ⟨p₁, hparse, hrest⟩ := Option.bind_eq_some_iff.mp hrun
    exact ih (parseLine_collected h hparse) (parseLine_rescListTask hp hparse) hrest

-- The simulation starts with the resources that the parser has listed.
theorem initial_resources_eq {content : List Char} {p : Parser}
    (h : readAndParseInput content = some p) :
    (initial p.rows).resources = p.resources.map (fun name => ⟨name, none⟩) := by
  obtain ⟨hcollected, hnil⟩ := foldlM_parseLine (p := Parser.empty) rfl rfl h
  rw [Collected, hnil, List.map_nil, List.append_nil] at hcollected
  rw [initial, hcollected]
  rfl

def ResourcesOnce (p : Parser) : Prop :=
  ∀ row ∈ p.rows, ∀ e ∈ row.resources, p.resources.count e.1 = 1

theorem resourcesOnce {content : List Char} {p : Parser} (h : readAndParseInput content = some p) :
    ResourcesOnce p := by
  obtain ⟨hcollected, hnil⟩ := foldlM_parseLine (p := Parser.empty) rfl rfl h
  rw [Collected, hnil, List.map_nil, List.append_nil] at hcollected
  have hnodup : p.resources.Nodup := by
    rw [hcollected]
    exact resourceNames_nodup p.rows
  intro row hrow e he
  apply List.count_eq_one_of_mem hnodup
  rw [hcollected, mem_foldl_addResource]
  exact Or.inr (List.mem_flatMap.mpr ⟨row, hrow, List.mem_map_of_mem he⟩)

end Resources

section File

theorem linesOf_shape {content line : List Char} (h : line ∈ linesOf content) :
    ∃ body, '\n' ∉ body ∧ (line = body ∨ line = body ++ ['\n']) := by
  induction content generalizing line with
  | nil => exact absurd h List.not_mem_nil
  | cons c cs ih =>
    rw [linesOf] at h
    split at h
    · rename_i hc
      rcases List.mem_cons.mp h with rfl | h
      · exact ⟨[], List.not_mem_nil, Or.inr (by rw [hc]; rfl)⟩
      · exact ih h
    · rename_i hc
      split at h
      · obtain rfl := List.mem_singleton.mp h
        exact ⟨[c], by simpa using Ne.symm hc, Or.inl rfl⟩
      · rename_i first rest hlines
        rcases List.mem_cons.mp h with rfl | h
        · have hmem : first ∈ linesOf cs := by
            rw [hlines]
            exact List.mem_cons_self
          obtain ⟨body, hbody, hfirst⟩ := ih hmem
          refine ⟨c :: body, ?_, ?_⟩
          · exact fun hmem => (List.mem_cons.mp hmem).elim (fun heq => hc heq.symm) hbody
          · rcases hfirst with rfl | rfl
            · exact Or.inl rfl
            · exact Or.inr rfl
        · exact ih (by rw [hlines]; exact List.mem_cons_of_mem first h)

theorem getlines_shape {content line : List Char} (h : line ∈ getlines content) :
    ∃ body, '\n' ∉ body ∧ (line = body ∨ line = body ++ ['\n']) := by
  obtain ⟨full, hfull, rfl⟩ := List.mem_map.mp h
  obtain ⟨body, hbody, heq⟩ := linesOf_shape hfull
  have hcut : ∀ p : Char → Bool, '\n' ∉ body.takeWhile p := by
    exact fun p hmem => hbody (List.takeWhile_subset p hmem)
  rcases heq with rfl | rfl
  · exact ⟨_, hcut _, Or.inl rfl⟩
  · rw [List.takeWhile_append]
    split
    · exact ⟨body, hbody, Or.inr rfl⟩
    · exact ⟨_, hcut _, Or.inl rfl⟩

theorem ends_strtok {line body : List Char} (hbody : '\n' ∉ body)
    (h : line = body ∨ line = body ++ ['\n']) : Ends '\n' (fields line) (strtok line) := by
  have hsep : ∀ c ∈ body, isSpace c = decide (c ∈ delimiter) := by
    intro c hc
    have hne : c ≠ '\n' := fun heq => hbody (heq ▸ hc)
    simp [isSpace, hne]
  rcases h with rfl | rfl
  · rw [fields, strtok, runs, runs, runsFrom_congr hsep]
    exact Ends.refl _ _
  · exact ends_runsFrom hsep (by decide) (by decide) []

-- Every line that the parser takes as a row is one, and the row is read as it stands there.
def FaithfulFrom : Parser → List (List Char) → Prop
  | _, [] => True
  | p, line :: rest =>
    LineFaithful p line ∧ ∀ p', parseLine p line = some p' → FaithfulFrom p' rest

def FileFaithful (content : List Char) : Prop :=
  FaithfulFrom Parser.empty (getlines content) ∧
    ∃ p, readAndParseInput content = some p ∧ ResourcesOnce p

theorem faithfulFrom_iff {lines : List (List Char)} {p : Parser} (hp : p.rescListTask = [])
    (hends : ∀ line ∈ lines, Ends '\n' (fields line) (strtok line)) :
    FaithfulFrom p lines ↔ ∀ line ∈ lines, Accepted (strtok line) → WellFormedLine line := by
  induction lines generalizing p with
  | nil => exact iff_of_true trivial (fun line h => absurd h List.not_mem_nil)
  | cons line lines ih =>
    have hfirst := lineFaithful_iff hp (hends line List.mem_cons_self)
    have hrest := fun p' (hparse : parseLine p line = some p') =>
      ih (parseLine_rescListTask hp hparse) (fun l hl => hends l (List.mem_cons_of_mem line hl))
    rw [FaithfulFrom, List.forall_mem_cons, hfirst]
    constructor
    · rintro ⟨hline, hlines⟩
      obtain ⟨p', hparse, _⟩ := hfirst.mpr hline
      exact ⟨hline, (hrest p' hparse).mp (hlines p' hparse)⟩
    · rintro ⟨hline, hlines⟩
      exact ⟨hline, fun p' hparse => (hrest p' hparse).mpr hlines⟩

theorem FaithfulFrom.parsed {lines : List (List Char)} {p : Parser} (h : FaithfulFrom p lines) :
    ∃ p', lines.foldlM parseLine p = some p' := by
  induction lines generalizing p with
  | nil => exact ⟨p, rfl⟩
  | cons line lines ih =>
    obtain ⟨⟨p₁, hparse, _⟩, hrest⟩ := h
    rw [List.foldlM_cons, hparse]
    exact ih (hrest p₁ hparse)

theorem task_table_faithful_iff (content : List Char) :
    FileFaithful content ↔
      ∀ line ∈ getlines content, Accepted (strtok line) → WellFormedLine line := by
  have hends : ∀ line ∈ getlines content, Ends '\n' (fields line) (strtok line) := by
    intro line hline
    obtain ⟨body, hbody, heq⟩ := getlines_shape hline
    exact ends_strtok hbody heq
  have hlines := faithfulFrom_iff (p := Parser.empty) rfl hends
  constructor
  · exact fun h => hlines.mp h.1
  · intro h
    have hfaithful := hlines.mpr h
    obtain ⟨p, hp⟩ := hfaithful.parsed
    exact ⟨hfaithful, p, hp, resourcesOnce hp⟩

theorem missing_triple_accepted : ¬∀ content : List Char, FileFaithful content := by
  intro h
  obtain ⟨⟨p, hparse, hfaithful⟩, _⟩ := (h "A 0 5 1 5 2 R 0 1".toList).1
  have hresult : parseLine Parser.empty "A 0 5 1 5 2 R 0 1".toList =
      some ⟨0, 0, [⟨"A", 0, 5, 1, 5, [("R", 0, 1)]⟩], ["A"], ["R"], []⟩ := by
    decide +kernel
  obtain rfl := Option.some_inj.mp (hresult.symm.trans hparse)
  obtain ⟨row, hread, _⟩ := hfaithful _ rfl
  have hnone : readRow (fields "A 0 5 1 5 2 R 0 1".toList) = none := by
    decide +kernel
  exact absurd (hread.symm.trans hnone) (by simp)

end File

end Simulator
