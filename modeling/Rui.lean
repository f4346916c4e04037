import Rui.Changes.RingLaws
import Rui.Execution.CustodyLaws
import Rui.Http1.Splits
import Rui.Json.Source
import Rui.Requests.JsonCursorLaws
import Rui.Responses.JudgeLaws
import Rui.Responses.EncoderLaws
import Rui.Bash.LifecycleLaws
import Rui.Mcp.EventStreamLaws
import Rui.Mcp.Request
import Rui.Store.QueueLaws
import Rui.HistoryMemo.SpanLaws
import Rui.Mysql.RowLaws
import Rui.Batch.StoreLaws
import Rui.Rounds.AccessLaws
import Rui.Rsql.OneRowLaws
import Rui.Library.Keyset
import Rui.Rsql.Page
import Rui.Rsql.PageRows
import Rui.Rsql.PageGates
import Rui.Rsql.PageChunks
import Rui.Rsql.PageLaws
import Rui.WordSearch.Matcher
import Rui.ToolSets.HostLaws
import Rui.SessionEnvironments.RunLaws
import Rui.Requests.DigestLaws
import Rui.Retention.QueueLaws
import Rui.Postgres.Messages
import Rui.Answers.Selection
import Rui.Answers.EventStream
import Rui.Responses.ClassifyLaws
import Rui.ExecutionTurn.AdmissionLaws
import Rui.SessionSubmission.SubmissionLaws
import Rui.HistoryFloor.WalkLaws
import Rui.Changes.Tokens
import Rui.Retries.RetryAfterLaws
import Rui.SessionWork.WorkLaws
import Rui.Outputs.RecordLaws
import Rui.WordSearch.MatcherLaws
import Rui.Forwards.FeedRuns
import Rui.SessionStops.Stopped
import Rui.Terminal.TextForms
import Rui.Credentials.FileLaws
import Rui.Tunnels.AnswerVerdict
import Rui.Connects.RaceVerdict
import Rui.ChildEnvironments.BlockLaws
import Rui.Routing.TurnStatesLaws
import Rui.Viewport.ScrollingLaws
import Rui.Descriptions.LineLaws
import Rui.ContentChunks.ChunkReads
import Rui.Transfers.HeaderLaws
