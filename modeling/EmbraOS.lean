import EmbraOS.Ports.AnthropicStream
import EmbraOS.Ports.Arbiter
import EmbraOS.Ports.CaBundle
import EmbraOS.Ports.Durations
import EmbraOS.Ports.EdgeDerive
import EmbraOS.Ports.EmbeddingCache
import EmbraOS.Ports.Events
import EmbraOS.Ports.Express
import EmbraOS.Ports.Fence
import EmbraOS.Ports.FileCopyLinks
import EmbraOS.Ports.FilePatch
import EmbraOS.Ports.FileRead
import EmbraOS.Ports.GitUrl
import EmbraOS.Ports.GraphProjectSpec
import EmbraOS.Ports.Guardian
import EmbraOS.Ports.GuestJsonSpec
import EmbraOS.Ports.HtmlText
import EmbraOS.Ports.HttpSpec
import EmbraOS.Ports.InjectScrub
import EmbraOS.Ports.InputBox
import EmbraOS.Ports.LearningOnce
import EmbraOS.Ports.MaskHeaders
import EmbraOS.Ports.MemoryDedup
import EmbraOS.Ports.MergeContent
import EmbraOS.Ports.PartOrder
import EmbraOS.Ports.RemindersSpec
import EmbraOS.Ports.Replicant
import EmbraOS.Ports.RestartBudget
import EmbraOS.Ports.SecretRedact
import EmbraOS.Ports.SessionCreate
import EmbraOS.Ports.SessionDelete
import EmbraOS.Ports.SessionSearch
import EmbraOS.Ports.SoulSeal
import EmbraOS.Ports.StopTurn
import EmbraOS.Ports.StoppedTurns
import EmbraOS.Ports.Supersession
import EmbraOS.Ports.ToolFeed
import EmbraOS.Ports.TurnText
import EmbraOS.Ports.ValidatorSpec
import EmbraOS.Ports.WebAccess
