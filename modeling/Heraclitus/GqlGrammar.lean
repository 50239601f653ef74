import Heraclitus.Lib.Peg
/-!
# GqlGrammar — the query grammar (`heraclitus-query/src/gql.pest`)

The rules are the file's, in its order; blanks are its `WHITESPACE`, and words of the language are found in any case.
-/
namespace Heraclitus
namespace Gql

open Peg

inductive Rule where
  | query | explain | require | stmt
  | matchStmt | validAt | pattern | nodePat | rel | whereClause | boolOp | condition | cmp | operand | distFn | distKind
  | asOf | asOfLsn | asOfTs | returnClause | retItem | star | orderBy | direction | limit
  | createStmt | props | pair
  | recallStmt | nearestStmt | vector | provenanceStmt | neighborsStmt | traverseStmt | fuseStmt | resolveStmt | clusterStmt
  | hypothesesStmt | whyStmt | communityStmt | leidenKw | metricsStmt | decideStmt | simulateStmt | simulateOp | adaptStmt
  | ident | prop | int | number | string
  | eoi
  deriving DecidableEq

/-- `{:?}` of a rule. -/
def Rule.debug : Rule → String
  | .query => "query"
  | .explain => "explain"
  | .require => "require"
  | .stmt => "stmt"
  | .matchStmt => "match_stmt"
  | .validAt => "valid_at"
  | .pattern => "pattern"
  | .nodePat => "node_pat"
  | .rel => "rel"
  | .whereClause => "where_clause"
  | .boolOp => "bool_op"
  | .condition => "condition"
  | .cmp => "cmp"
  | .operand => "operand"
  | .distFn => "dist_fn"
  | .distKind => "dist_kind"
  | .asOf => "as_of"
  | .asOfLsn => "as_of_lsn"
  | .asOfTs => "as_of_ts"
  | .returnClause => "return_clause"
  | .retItem => "ret_item"
  | .star => "star"
  | .orderBy => "order_by"
  | .direction => "direction"
  | .limit => "limit"
  | .createStmt => "create_stmt"
  | .props => "props"
  | .pair => "pair"
  | .recallStmt => "recall_stmt"
  | .nearestStmt => "nearest_stmt"
  | .vector => "vector"
  | .provenanceStmt => "provenance_stmt"
  | .neighborsStmt => "neighbors_stmt"
  | .traverseStmt => "traverse_stmt"
  | .fuseStmt => "fuse_stmt"
  | .resolveStmt => "resolve_stmt"
  | .clusterStmt => "cluster_stmt"
  | .hypothesesStmt => "hypotheses_stmt"
  | .whyStmt => "why_stmt"
  | .communityStmt => "community_stmt"
  | .leidenKw => "leiden_kw"
  | .metricsStmt => "metrics_stmt"
  | .decideStmt => "decide_stmt"
  | .simulateStmt => "simulate_stmt"
  | .simulateOp => "simulate_op"
  | .adaptStmt => "adapt_stmt"
  | .ident => "ident"
  | .prop => "prop"
  | .int => "int"
  | .number => "number"
  | .string => "string"
  | .eoi => "EOI"

/-- A word in any case. -/
def kw (word : String) : Peg Rule := .insens word.toList

def lit (text : String) : Peg Rule := .str text.toList

def asciiDigit : Peg Rule := .char Char.isDigit

def body : Rule → Peg Rule
  | .query => .all [.soi, .opt (.rule .explain), .opt (.rule .require), .rule .stmt, .rule .eoi]
  | .explain => kw "EXPLAIN"
  | .require => .all [kw "REQUIRE", kw "LSN", lit ">=", .rule .int]
  | .stmt => .any [.rule .simulateStmt, .rule .matchStmt, .rule .createStmt, .rule .recallStmt, .rule .nearestStmt,
      .rule .provenanceStmt, .rule .neighborsStmt, .rule .traverseStmt, .rule .fuseStmt, .rule .resolveStmt, .rule .clusterStmt,
      .rule .hypothesesStmt, .rule .whyStmt, .rule .communityStmt, .rule .metricsStmt, .rule .decideStmt, .rule .adaptStmt]
  | .matchStmt => .all [kw "MATCH", .rule .pattern, .opt (.rule .whereClause), .opt (.rule .validAt), .opt (.rule .asOf),
      .rule .returnClause, .opt (.rule .orderBy), .opt (.rule .limit)]
  | .validAt => .all [kw "VALID", kw "AT", .rule .int]
  | .pattern => .all [.rule .nodePat, .opt (.all [.rule .rel, .rule .nodePat])]
  | .nodePat => .all [lit "(", .rule .ident, .opt (.all [lit ":", .rule .ident]), lit ")"]
  | .rel => .all [lit "-[", .rule .ident, .opt (.all [lit ":", .rule .ident]), lit "]->"]
  | .whereClause => .all [kw "WHERE", .rule .condition, .star (.all [.rule .boolOp, .rule .condition])]
  | .boolOp => .any [kw "AND", kw "OR"]
  | .condition => .all [.rule .operand, .rule .cmp, .rule .operand]
  | .cmp => .any [lit "!=", lit ">=", lit "<=", lit "=", lit ">", lit "<"]
  | .operand => .any [.rule .distFn, .rule .prop, .rule .number, .rule .string, .rule .ident]
  | .distFn => .all [.rule .distKind, lit "(", .rule .vector, lit ")"]
  | .distKind => .any [kw "DIST_PRODUCT", kw "DIST_HYP", kw "DIST_SPH", kw "DIST_EUC"]
  | .asOf => .all [kw "AS", kw "OF", .any [.rule .asOfLsn, .rule .asOfTs]]
  | .asOfLsn => .all [kw "LSN", .rule .int]
  | .asOfTs => .all [kw "TIMESTAMP", .rule .int]
  | .returnClause => .all [kw "RETURN", .rule .retItem, .star (.all [lit ",", .rule .retItem])]
  | .retItem => .any [.rule .star, .rule .prop, .rule .ident]
  | .star => lit "*"
  | .orderBy => .all [kw "ORDER", kw "BY", .any [.rule .distFn, .rule .prop, .rule .ident], .opt (.rule .direction)]
  | .direction => .any [kw "ASC", kw "DESC"]
  | .limit => .all [kw "LIMIT", .rule .int]
  | .createStmt => .all [kw "CREATE", lit "(", .rule .ident, .opt (.all [lit ":", .rule .ident]), .opt (.rule .props), lit ")"]
  | .props => .all [lit "\x7b", .rule .pair, .star (.all [lit ",", .rule .pair]), lit "\x7d"]
  | .pair => .all [.rule .ident, lit ":", .any [.rule .string, .rule .number]]
  | .recallStmt => .all [kw "RECALL", lit "(", .rule .string, lit ",", .rule .int, lit ")", .opt (.rule .asOf)]
  | .nearestStmt => .all [kw "NEAREST", lit "(", .rule .vector, lit ",", .rule .int, lit ")", .opt (.rule .asOf)]
  | .vector => .all [lit "[", .rule .number, .star (.all [lit ",", .rule .number]), lit "]"]
  | .provenanceStmt => .all [kw "PROVENANCE", lit "(", .rule .string, lit ")"]
  | .neighborsStmt => .all [kw "NEIGHBORS", lit "(", .rule .string, .opt (.all [lit ",", .rule .string]), lit ")",
      .opt (.rule .asOf)]
  | .traverseStmt => .all [kw "TRAVERSE", lit "(", .rule .string, lit ",", .rule .int, lit ")", .opt (.rule .asOf)]
  | .fuseStmt => .all [kw "FUSE", lit "(", .rule .string, lit ",", .rule .vector, lit ",", .rule .string, lit ",", .rule .int,
      lit ")", .opt (.rule .asOf)]
  | .resolveStmt => .all [kw "RESOLVE", lit "(", .rule .string, lit ")", .opt (.rule .asOf)]
  | .clusterStmt => .all [kw "CLUSTER", lit "(", .rule .string, lit ")", .opt (.rule .asOf)]
  | .hypothesesStmt => .all [kw "HYPOTHESES", lit "(", .rule .string, lit ",", .rule .string, lit ",", .rule .string, lit ")",
      .opt (.rule .asOf)]
  | .whyStmt => .all [kw "WHY", lit "(", .rule .string, .opt (.all [lit ",", .rule .int]), lit ")",
      .opt (.all [kw "UNTIL", .rule .string]), .opt (.rule .asOf)]
  | .communityStmt => .all [kw "COMMUNITY", lit "(", .rule .string, .opt (.all [lit ",", .rule .leidenKw]), lit ")",
      .opt (.rule .asOf)]
  | .leidenKw => kw "LEIDEN"
  | .metricsStmt => .all [kw "METRICS", lit "(", .rule .string, lit ")", .opt (.rule .asOf)]
  | .decideStmt => .all [kw "DECIDE", lit "(", lit ")", .opt (.rule .asOf)]
  | .simulateStmt => .all [kw "SIMULATE", .rule .simulateOp, kw "EDGE", lit "(", .rule .string, lit ",", .rule .string, lit ",",
      .rule .string, lit ")", kw "THEN", .rule .stmt]
  | .simulateOp => .any [kw "ADD", kw "REMOVE"]
  | .adaptStmt => .all [kw "ADAPT", lit "(", lit ")", .opt (.rule .asOf)]
  | .ident => .all [.char Char.isAlpha, .star (.any [.char Char.isAlphanum, lit "_"])]
  | .prop => .all [.rule .ident, lit ".", .rule .ident]
  | .int => .plus asciiDigit
  | .number => .all [.opt (lit "-"), .plus asciiDigit, .opt (.all [lit ".", .plus asciiDigit])]
  | .string => .all [lit "\"", .star (.all [.no (lit "\""), .char (fun _ => true)]), lit "\""]
  | .eoi => .eoi

def kindOf : Rule → Kind
  | .ident | .int | .number | .string => .atomic
  | .prop => .compound
  | _ => .normal

def gql : Grammar Rule where
  kind := kindOf
  body := body
  blank c := c == ' ' || c == '\t' || c == '\r' || c == '\n'

/-- `GqlParser::parse(Rule::query, text)` succeeds and leaves this pair. -/
def Accepts (text : List Char) (p : Pair Rule) : Prop :=
  ∃ rest, Parses gql text.length .spaced (.rule .query) text [p] rest

end Gql
end Heraclitus
