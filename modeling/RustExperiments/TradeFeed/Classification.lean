/- module: RustExperiments/TradeFeed/Classification
   digest: Which texts make the feed ask the database for anything, among all texts. -/

import RustExperiments.Lib.History
import RustExperiments.TradeFeed.Understanding

set_option autoImplicit false
set_option relaxedAutoImplicit false

namespace RustExperiments.TradeFeed

open RustExperiments.Lib

section Buffer

variable {Literal Number : Type} {number : Literal → Option Number} {value : Value Literal}
  {depth : ℕ}

theorem kind_buffer {content : Value Number} (h : value.buffer number depth = some content) :
    content.kind = value.kind := by
  cases value with
  | null =>
    cases h
    rfl
  | bool b =>
    cases h
    rfl
  | number literal =>
    obtain ⟨n, _, rfl⟩ := Option.map_eq_some_iff.mp h
    rfl
  | string s =>
    cases h
    rfl
  | array items =>
    rw [Value.buffer] at h
    split_ifs at h
    obtain ⟨contents, _, rfl⟩ := Option.map_eq_some_iff.mp h
    rfl
  | object fields =>
    rw [Value.buffer] at h
    split_ifs at h
    obtain ⟨contents, _, rfl⟩ := Option.map_eq_some_iff.mp h
    rfl

theorem buffer_eq_array {contents : List (Value Number)}
    (h : value.buffer number depth = some (.array contents)) :
    ∃ items, value = .array items ∧ 1 < depth ∧
      items.mapM (fun item => item.buffer number (depth - 1)) = some contents := by
  have hkind := kind_buffer h
  cases value with
  | array items =>
    rw [Value.buffer] at h
    split_ifs at h with hdeep
    obtain ⟨contents', hitems, heq⟩ := Option.map_eq_some_iff.mp h
    cases heq
    refine ⟨items, rfl, by omega, ?_⟩
    rw [← bufferItems_eq]
    exact hitems
  | _ => cases hkind

theorem buffer_eq_number {n : Number} (h : value.buffer number depth = some (.number n)) :
    ∃ literal, value = .number literal ∧ number literal = some n := by
  have hkind := kind_buffer h
  cases value with
  | number literal =>
    obtain ⟨n', hn, heq⟩ := Option.map_eq_some_iff.mp h
    cases heq
    exact ⟨literal, rfl, hn⟩
  | _ => cases hkind

theorem buffer_eq_string {s : String} (h : value.buffer number depth = some (.string s)) :
    value = .string s := by
  have hkind := kind_buffer h
  cases value with
  | string s' =>
    cases h
    rfl
  | _ => cases hkind

theorem items_eq_arrays {items : List (Value Literal)} {contents : List (Value Number)}
    (h : items.mapM (fun item => item.buffer number depth) = some contents)
    (arrays : ∀ content ∈ contents, ∃ cells, content = .array cells) :
    ∃ rows : List (List (Value Literal)), items = rows.map Value.array := by
  have hitems := (mapM_eq_some_iff _).mp h
  clear h
  induction hitems with
  | nil => exact ⟨[], rfl⟩
  | @cons item content items contents hitem _ ih =>
    obtain ⟨cells, rfl⟩ := arrays content List.mem_cons_self
    obtain ⟨row, rfl, _⟩ := buffer_eq_array hitem
    obtain ⟨rows, rfl⟩ := ih fun content hcontent =>
      arrays content (List.mem_cons_of_mem _ hcontent)
    exact ⟨row :: rows, rfl⟩

end Buffer

section Primitives

variable {Number F64 α : Type} {asU64 : Number → Option ℕ} {content : Value Number}

theorem deserializeVec_eq_some {item : Value Number → Option α} {values : List α}
    (h : deserializeVec item content = some values) :
    ∃ contents, content = .array contents ∧ contents.mapM item = some values := by
  cases content with
  | array contents => exact ⟨contents, rfl, h⟩
  | _ => cases h

theorem deserializeU64_eq_some {n : ℕ} (h : deserializeU64 asU64 content = some n) :
    ∃ number, content = .number number ∧ asU64 number = some n := by
  cases content with
  | number number => exact ⟨number, rfl, h⟩
  | _ => cases h

theorem deserializeString_eq_some {s : String} (h : deserializeString content = some s) :
    content = .string s := by
  cases content with
  | string s' => rw [Option.some.inj h]
  | _ => cases h

theorem deserializeTradeMessage_eq_some {asF64 : Number → F64} {channelId : ℕ}
    {trades : List (List (JsonValue F64))} {channelName pair : String}
    (h : deserializeTradeMessage asU64 asF64 content =
      some (.tradeMessage channelId trades channelName pair)) :
    ∃ n rows, content = .array [.number n, .array rows, .string channelName, .string pair] ∧
      asU64 n = some channelId ∧ ∀ row ∈ rows, ∃ cells, row = .array cells := by
  unfold deserializeTradeMessage at h
  split at h
  · rename_i channel rows name last
    obtain ⟨channelId', hchannel, h⟩ := Option.bind_eq_some_iff.mp h
    obtain ⟨trades', hrows, h⟩ := Option.bind_eq_some_iff.mp h
    obtain ⟨channelName', hname, h⟩ := Option.bind_eq_some_iff.mp h
    obtain ⟨pair', hlast, heq⟩ := Option.map_eq_some_iff.mp h
    cases heq
    obtain ⟨n, rfl, hn⟩ := deserializeU64_eq_some hchannel
    obtain ⟨contents, rfl, hcontents⟩ := deserializeVec_eq_some hrows
    obtain rfl := deserializeString_eq_some hname
    obtain rfl := deserializeString_eq_some hlast
    refine ⟨n, contents, rfl, hn, fun row hrow => ?_⟩
    have hread := (mapM_isSome_iff _ _).mp (Option.isSome_of_eq_some hcontents) row hrow
    obtain ⟨cells, hcells⟩ := Option.isSome_iff_exists.mp hread
    obtain ⟨cells', rfl, _⟩ := deserializeVec_eq_some hcells
    exact ⟨cells', rfl⟩
  · cases h

end Primitives

namespace JsonReader

variable {serde : SerdeJson} (reader : JsonReader serde)

/-- What is not JSON is refused. -/
def Strict : Prop := ∀ text, reader.document text = none → ∃ e, serde.fromStr text = .error e

/-- `[channel, rows, "trade", pair]` with an unsigned channel and with rows of plain cells, of which
one is long enough for a trade. -/
def TradeBatch (value : Value reader.Literal) : Prop :=
  ∃ channel channelId rows pair, value = tradeDocument channel rows pair ∧
    (reader.number channel).bind reader.asU64 = some channelId ∧
    (∀ row ∈ rows, ∀ cell ∈ row, reader.isPlain cell = true) ∧ ∃ row ∈ rows, 5 ≤ row.length

variable {reader} {text : String} {value : Value reader.Literal}

theorem document_of_trade {channelId : ℕ} {trades : List (List (JsonValue serde.F64))}
    {pair : String} (form : reader.document text = some value)
    (read : serde.fromStr text = .ok (.tradeMessage channelId trades "trade" pair)) :
    ∃ channel rows, value = tradeDocument channel rows pair ∧
      (reader.number channel).bind reader.asU64 = some channelId ∧
      rows.mapM (List.mapM reader.cell) = some trades := by
  cases hbuffer : value.buffer reader.number recursionLimit with
  | none =>
    obtain ⟨e, he⟩ := reader.refuses form hbuffer
    rw [he] at read
    cases read
  | some content =>
    have hread := read
    rw [reader.reads form hbuffer, KrakenMessage.deserialize_trade_iff] at hread
    obtain ⟨n, contents, rfl, hn, harrays⟩ := deserializeTradeMessage_eq_some hread
    obtain ⟨items, rfl, _, hitems⟩ := buffer_eq_array hbuffer
    have hfour := (mapM_eq_some_iff _).mp hitems
    rcases hfour with _ | ⟨hchannel, _ | ⟨hrows, _ | ⟨hname, _ | ⟨hpair, hnil⟩⟩⟩⟩
    cases hnil
    obtain ⟨channel, rfl, hliteral⟩ := buffer_eq_number hchannel
    obtain ⟨rowItems, rfl, _, hrowItems⟩ := buffer_eq_array hrows
    obtain ⟨rows, rfl⟩ := items_eq_arrays hrowItems harrays
    obtain rfl := buffer_eq_string hname
    obtain rfl := buffer_eq_string hpair
    have hunsigned : (reader.number channel).bind reader.asU64 = some channelId := by
      rw [hliteral]
      exact hn
    exact ⟨channel, rows, rfl, hunsigned, (fromStr_trade_iff form hunsigned).mp read⟩

theorem rowOf_isSome (pair : String) {row : List (JsonValue serde.F64)} :
    (rowOf serde pair row).isSome ↔ 5 ≤ row.length := by
  rcases row_cases row with hshort | ⟨c0, c1, c2, c3, c4, rest, rfl⟩
  · rw [rowOf_short pair hshort]
    exact iff_of_false (by simp) (by omega)
  · exact iff_of_true rfl (by simp)

/-- A text has rows to store exactly if it is a trade batch. -/
theorem messageRows_ne_nil_iff (strict : reader.Strict) (text : String) :
    messageRows serde text ≠ [] ↔
      ∃ value, reader.document text = some value ∧ reader.TradeBatch value := by
  constructor
  · intro hrows
    unfold messageRows at hrows
    split at hrows
    · rename_i channelId trades channelName pair hread
      split_ifs at hrows with hname
      · subst hname
        cases hform : reader.document text with
        | none =>
          obtain ⟨e, he⟩ := strict text hform
          rw [he] at hread
          cases hread
        | some value =>
          obtain ⟨channel, rows, rfl, hunsigned, hcells⟩ := document_of_trade hform hread
          obtain ⟨row, hrow⟩ := List.exists_mem_of_ne_nil _ hrows
          obtain ⟨trade, htrade, hlong⟩ := List.mem_filterMap.mp hrow
          have hlength : 5 ≤ trade.length :=
            (rowOf_isSome pair).mp (Option.isSome_of_eq_some hlong)
          refine ⟨_, rfl, channel, channelId, rows, pair, rfl, hunsigned, ?_, ?_⟩
          · intro row hrow cell hcell
            have hsome := (mapM_isSome_iff _ _).mp (Option.isSome_of_eq_some hcells) row hrow
            rw [mapM_isSome_iff] at hsome
            rw [← reader.cell_isSome]
            exact hsome cell hcell
          · obtain ⟨row, hrow, hcells'⟩ := (mem_mapM hcells trade).mp htrade
            have hsame := ((mapM_eq_some_iff _).mp hcells').length_eq
            exact ⟨row, hrow, by omega⟩
      · exact absurd rfl hrows
    · exact absurd rfl hrows
  · rintro ⟨value, hform, channel, channelId, rows, pair, rfl, hunsigned, hplain, row, hrow, hlong⟩
    have hread : (rows.mapM (List.mapM reader.cell)).isSome := by
      rw [mapM_isSome_iff]
      intro row hrow
      rw [mapM_isSome_iff]
      intro cell hcell
      rw [reader.cell_isSome]
      exact hplain row hrow cell hcell
    obtain ⟨trades, htrades⟩ := Option.isSome_iff_exists.mp hread
    have hmessage := (fromStr_trade_iff hform hunsigned).mpr htrades
    rw [messageRows_trade hmessage]
    have hcells := (mapM_isSome_iff _ _).mp hread row hrow
    obtain ⟨cells, hcells⟩ := Option.isSome_iff_exists.mp hcells
    have hsame := ((mapM_eq_some_iff _).mp hcells).length_eq
    have hlong' : (rowOf serde pair cells).isSome := (rowOf_isSome pair).mpr (by omega)
    obtain ⟨row', hrow'⟩ := Option.isSome_iff_exists.mp hlong'
    apply List.ne_nil_of_mem
    exact List.mem_filterMap.mpr ⟨cells, (mem_mapM htrades cells).mpr ⟨row, hrow, hcells⟩, hrow'⟩

end JsonReader

section Asking

variable {serde : SerdeJson}

theorem awaits_iff (text : String) (redisConnection : Bool) :
    (∃ q k, (handleWsMessage serde text redisConnection).run = .await q k) ↔
      messageRows serde text ≠ [] := by
  have hobeys := @handleWsMessage_obeys serde text redisConnection
  constructor
  · rintro ⟨q, k, hawait⟩ hrows
    rw [hawait, hrows] at hobeys
    cases hobeys with
    | await allowed _ => exact allowed.1 rfl
  · intro hrows
    cases hrun : (handleWsMessage serde text redisConnection).run with
    | await q k => exact ⟨q, k, rfl⟩
    | ret r =>
      rw [hrun] at hobeys
      cases hobeys with
      | ret ended =>
        cases hlist : messageRows serde text with
        | nil => exact absurd hlist hrows
        | cons row rows =>
          rw [hlist] at ended
          cases ended

theorem rows_of_performed {checks : Bool} {inputs : List (ClientInput Task Env)}
    {s : Clients.State Await Answer Outcome FeedStore} {es : List FeedEvent}
    (run : (feed serde checks).machine.run (.initial .first) inputs = some (s, es)) {i : ℕ}
    {text : String} {redisConnection : Bool}
    (spawned : .spawned i (.message text redisConnection) ∈ es)
    {q : Await} {a : Answer q} (performed : .performed i q a ∈ es) :
    messageRows serde text ≠ [] := by
  intro hrows
  obtain ⟨w, htold⟩ := Clients.told_of_run (task_obeys serde) run spawned
  have hpath := htold.path
  have hmem := Clients.mem_answersTo performed
  rw [Writer.start, hrows] at hpath
  generalize Clients.answersTo i es = answers at hpath hmem
  cases hpath with
  | nil => cases hmem
  | cons allowed _ => exact allowed.1 rfl

theorem event_of_object {reader : JsonReader serde} {text : String}
    {fields : List (String × Value reader.Literal)} {event : KrakenEventMessage}
    (form : reader.document text = some (.object fields))
    (read : serde.fromStr text = .ok (.eventMessage event)) :
    event = .heartbeat ∨ event = .unknown := by
  cases hbuffer : (Value.object fields).buffer reader.number recursionLimit with
  | none =>
    obtain ⟨e, he⟩ := reader.refuses form hbuffer
    rw [he] at read
    cases read
  | some content =>
    rw [reader.reads form hbuffer, KrakenMessage.deserialize] at read
    split at read
    · rename_i message hfirst
      obtain rfl := Except.ok.inj read
      have hkind := kind_buffer hbuffer
      cases content with
      | object entries =>
        obtain ⟨variant, hmem, hvariant⟩ := firstVariant_mem hfirst
        simp only [List.mem_cons, List.not_mem_nil, or_false] at hmem
        rcases hmem with rfl | rfl | rfl
        · cases hvariant
        · obtain ⟨event', hevent, heq⟩ := Option.map_eq_some_iff.mp hvariant
          cases heq
          exact KrakenEventMessage.deserialize_object hevent
        · cases hvariant
      | _ => cases hkind
    · cases read

/-- Only trade batches reach the database. A text makes the handler ask for anything exactly if it
is JSON and a trade batch; in no run, whatever else happens in it, is anything performed for a
message that is none; and an object, whatever its fields, is never understood as a status. -/
theorem only_batches_ask (reader : JsonReader serde) (strict : reader.Strict) :
    (∀ text redisConnection,
      (∃ q k, (handleWsMessage serde text redisConnection).run = .await q k) ↔
        ∃ value, reader.document text = some value ∧ reader.TradeBatch value) ∧
    (∀ checks inputs (s : Clients.State Await Answer Outcome FeedStore) (es : List FeedEvent),
      (feed serde checks).machine.run (.initial .first) inputs = some (s, es) →
      ∀ i text redisConnection, .spawned i (.message text redisConnection) ∈ es →
      ∀ q a, .performed i q a ∈ es →
        ∃ value, reader.document text = some value ∧ reader.TradeBatch value) ∧
    ∀ text fields event, reader.document text = some (.object fields) →
      serde.fromStr text = .ok (.eventMessage event) → event = .heartbeat ∨ event = .unknown := by
  refine ⟨?_, ?_, ?_⟩
  · intro text redisConnection
    rw [awaits_iff, JsonReader.messageRows_ne_nil_iff strict]
  · intro checks inputs s es run i text redisConnection spawned q a performed
    apply (JsonReader.messageRows_ne_nil_iff strict text).mp
    exact rows_of_performed run spawned performed
  · intro text fields event form read
    exact event_of_object form read

theorem cellReader_strict : cellReader.Strict := by
  intro text hnone
  show ∃ e, cellMessage ((cellDocument text).bind _) = .error e
  have hdocument : cellDocument text = none := hnone
  rw [hdocument]
  exact ⟨_, rfl⟩

theorem mixed_text_asks :
    (∃ q k, (handleWsMessage cellJson mixedText true).run = .await q k) ∧
    ¬ ∃ q k, (handleWsMessage cellJson nestedText true).run = .await q k := by
  obtain ⟨hasks, _, _⟩ := only_batches_ask cellReader cellReader_strict
  constructor
  · have hall : (mixedRows.all fun row => row.all cellReader.isPlain) = true := rfl
    have form : cellReader.document mixedText =
        some (tradeDocument "337" mixedRows "XBT/USD") := rfl
    refine (hasks mixedText true).mpr
      ⟨_, form, "337", 337, mixedRows, "XBT/USD", rfl, rfl, ?_, ?_⟩
    · intro row hrow cell hcell
      exact List.all_eq_true.mp (List.all_eq_true.mp hall row hrow) cell hcell
    · exact ⟨_, List.mem_cons_self, by decide⟩
  · rw [awaits_iff, not_not]
    rfl

end Asking

end RustExperiments.TradeFeed
