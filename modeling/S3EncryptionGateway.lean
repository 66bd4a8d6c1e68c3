import S3EncryptionGateway.Crypto.Chunked.Completeness
import S3EncryptionGateway.Crypto.Chunked.Truncation
import S3EncryptionGateway.Api.EngineLifetime
import S3EncryptionGateway.Api.HeaderProjection
import S3EncryptionGateway.Api.MultipartRouting
import S3EncryptionGateway.Api.Listing
import S3EncryptionGateway.Api.ListParts
import S3EncryptionGateway.Api.CopySource
import S3EncryptionGateway.Api.ForeignRoute
import S3EncryptionGateway.Api.ManifestVersions
import S3EncryptionGateway.Api.ObjectWrites
import S3EncryptionGateway.Api.RangedGet
import S3EncryptionGateway.Api.UploadPartCopy
import S3EncryptionGateway.Api.CompleteUpload
import S3EncryptionGateway.Crypto.Chunked.RangeTruncation
import S3EncryptionGateway.Mpu.CompleteSelection
import S3EncryptionGateway.Mpu.LegacyUploads
import S3EncryptionGateway.Api.AwsChunked
import S3EncryptionGateway.Crypto.RotationState
import S3EncryptionGateway.Api.SpoolManager
import S3EncryptionGateway.Api.UnsignedHeaders
import S3EncryptionGateway.Api.SignatureV2Freshness
import S3EncryptionGateway.Api.ObjectView
import S3EncryptionGateway.Crypto.Engine.MetadataOverflow
import S3EncryptionGateway.Crypto.Chunked.SizeArithmetic
import S3EncryptionGateway.Crypto.KeyWrap
import S3EncryptionGateway.Audit.BatchSink
